import Ens.Streams.Cursor

/-! # The reader as a cursor

However the source cuts its stream, a run of calls hands out its bytes in order, and a call that is late or whose source fails leaves them
for the next. What it does not give back is what it gathered before the source failed, bytes that spell no text, and a carriage return
that ends the stream.
-/
namespace Ens.Streams.Reader
variable {E : Type} {invalidAt : Encoding} {r : Reader E} {fuel : ℕ}

inductive Op
  | read (size : ℕ) (bounded : Bool)
  | readLine (bounded : Bool)
  | readAll
  | readAllText

inductive Outcome (E : Type)
  | data (bytes : List ℕ)
  | line (text : List ℕ)
  | nothing
  | failed (stop : Stop E)

def outcome {A : Type} (give : A → Outcome E) : EStateM.Result (Stop E) (Reader E) A → Outcome E × Reader E
  | .ok a r => (give a,r)
  | .error stop r => (.failed stop,r)

def perform (invalidAt : Encoding) (fuel : ℕ) (r : Reader E) : Op → Outcome E × Reader E
  | .read size bounded => outcome (fun o => o.elim .nothing .data) (readBy size bounded r)
  | .readLine bounded => outcome (fun o => o.elim .nothing .line) (lineBy invalidAt bounded fuel r)
  | .readAll => outcome .data (Reader.readAll fuel [] r)
  | .readAllText => outcome .data (Reader.readAllText invalidAt fuel r)

/-! ### What is handed out -/

def lineOf (bytes : List ℕ) : List ℕ := if 10 ∈ bytes then withoutReturn (firstLine bytes) else bytes

/-- A line, its end and what is left of the bytes. The last line may have no end. -/
def CutsLine (bytes line left : List ℕ) : Prop := line = lineOf bytes ∧ ∃ ending, bytes = line ++ ending ++ left ∧
  (ending = [10] ∨ ending = [13,10] ∨ ending = [] ∧ left = [])

def HandsOut (bytes left : List ℕ) : Op → Outcome E → Prop
  | .read size _, .data data => bytes = data ++ left ∧ data.length ≤ size ∧ (data = [] → size = 0 ∨ bytes = [])
  | .read _ bounded, .nothing => bounded = true ∧ left = bytes
  | .readLine _, .line line => bytes ≠ [] ∧ CutsLine bytes line left
  | .readLine bounded, .nothing => (bounded = true ∨ bytes = []) ∧ left = bytes
  | .readAll, .data data => data = bytes ∧ left = []
  | .readAllText, .data data => data = bytes ∧ left = []
  | _, .failed (.source _) => left = bytes
  | _, .failed (.encoding _) => left = bytes
  | _, _ => False

/-- Every call of a run hands out the bytes that come next, and leaves the others to the calls after it. -/
def Faithful (invalidAt : Encoding) (fuel : ℕ) (r : Reader E) : List Op → Prop
  | [] => True
  | op :: ops =>
    HandsOut r.rest (r.perform invalidAt fuel op).2.rest op (r.perform invalidAt fuel op).1 ∧
      Faithful invalidAt fuel (r.perform invalidAt fuel op).2 ops

/-! ### Where bytes are lost -/

/-- The source gives all it has left. -/
def CanDrain (r : Reader E) : Prop := r.ended = true ∨ Drains r.held.length r.source

/-- No byte is held and the source fails at once. -/
def FailsAtOnce (r : Reader E) : Prop := r.start = r.stop ∧ r.ended = false ∧ ∃ e, r.source.answers 0 = .failed e

/-- A call that loses nothing: its line is text and does not end the stream with a carriage return, and the source does not fail after
bytes that were to be gathered. -/
def Spares (invalidAt : Encoding) (r : Reader E) : Op → Prop
  | .read _ _ => True
  | .readLine _ => r.rest ≠ [] → invalidAt (lineOf r.rest) = none ∧ (10 ∉ r.rest → r.rest.getLast? ≠ some 13)
  | .readAll => r.CanDrain ∨ r.FailsAtOnce
  | .readAllText => r.CanDrain ∧ invalidAt r.rest = none ∨ r.FailsAtOnce

def AllSpare (invalidAt : Encoding) (fuel : ℕ) (r : Reader E) : List Op → Prop
  | [] => True
  | op :: ops => r.Spares invalidAt op ∧ AllSpare invalidAt fuel (r.perform invalidAt fuel op).2 ops

/-! ### One call -/

theorem mem_firstLine {bytes : List ℕ} (h : 10 ∈ bytes) : bytes = firstLine bytes ++ 10 :: afterLine bytes := by
  obtain ⟨line,behind,rfl,hline⟩ := List.eq_append_cons_of_mem h
  rw [firstLine_split hline,afterLine_split hline]

theorem lineOf_eq {bytes : List ℕ} (h : 10 ∉ bytes → bytes.getLast? ≠ some 13) : withoutReturn (firstLine bytes) = lineOf bytes := by
  rw [lineOf]
  split_ifs with hmem
  · rfl
  · rw [firstLine_last hmem,withoutReturn,if_neg (h hmem)]

theorem cutsLine {bytes : List ℕ} : CutsLine bytes (lineOf bytes) (afterLine bytes) := by
  refine ⟨rfl,?_⟩
  rw [lineOf]
  split_ifs with hmem
  · have hsplit := mem_firstLine hmem
    rw [withoutReturn]
    split_ifs with hreturn
    · have hfirst : firstLine bytes = (firstLine bytes).dropLast ++ [13] := by
        obtain ⟨front,hfront⟩ := List.getLast?_eq_some_iff.mp hreturn
        rw [hfront,List.dropLast_concat]
      refine ⟨[13,10],?_,.inr (.inl rfl)⟩
      conv_lhs => rw [hsplit,hfirst]
      simp
    · refine ⟨[10],?_,.inl rfl⟩
      rw [List.append_assoc,List.singleton_append]
      exact hsplit
  · exact ⟨[],by rw [afterLine_last hmem,List.append_nil,List.append_nil],.inr (.inr ⟨rfl,afterLine_last hmem⟩)⟩

structure Hands (bytes : List ℕ) (op : Op) (result : Outcome E × Reader E) : Prop where
  sound : result.2.Sound
  hands : HandsOut bytes result.2.rest op result.1
  length : result.2.rest.length ≤ bytes.length

theorem read_hands (h : r.Sound) (size : ℕ) (bounded : Bool) : Hands r.rest (.read size bounded) (r.perform invalidAt fuel (.read size bounded)) := by
  have hpiece := readBy_piece h size bounded
  rw [perform]
  generalize readBy size bounded r = result at hpiece
  cases hpiece with
  | data data r' hsound hsplit hsize hnil =>
    refine ⟨hsound,⟨hsplit,hsize,hnil⟩,?_⟩
    rw [hsplit,List.length_append]
    exact Nat.le_add_left _ _
  | late r' hb hsound hrest => exact ⟨hsound,⟨hb,hrest⟩,Nat.le_of_eq (congrArg List.length hrest)⟩
  | failed e r' hsound hrest => exact ⟨hsound,hrest,Nat.le_of_eq (congrArg List.length hrest)⟩

theorem readLine_hands (h : r.Sound) (bounded : Bool) (hspare : r.Spares invalidAt (.readLine bounded)) (hfuel : r.rest.length < fuel) :
    Hands r.rest (.readLine bounded) (r.perform invalidAt fuel (.readLine bounded)) := by
  have hleft : r.source.left.length < fuel := by
    rw [rest,List.length_append] at hfuel
    omega
  have hlining : Lining invalidAt bounded r.rest (lineBy invalidAt bounded fuel r) := lineBy_lining h bounded hleft
  rw [perform]
  generalize lineBy invalidAt bounded fuel r = result at hlining
  cases hlining with
  | line r' hsound hne hrest hvalid =>
    refine ⟨hsound,⟨hne,?_⟩,?_⟩
    · change CutsLine r.rest (withoutReturn (firstLine r.rest)) r'.rest
      rw [lineOf_eq (hspare hne).2,hrest]
      exact cutsLine
    · change r'.rest.length ≤ _
      rw [hrest,afterLine,List.length_drop]
      exact Nat.sub_le _ _
  | nothing r' hwhy hsound hrest => exact ⟨hsound,⟨hwhy,hrest⟩,Nat.le_of_eq (congrArg List.length hrest)⟩
  | failed e r' hsound hrest => exact ⟨hsound,hrest,Nat.le_of_eq (congrArg List.length hrest)⟩
  | illFormed offset r' hsound hne hrest hinvalid =>
    rw [lineOf_eq (hspare hne).2,(hspare hne).1] at hinvalid
    cases hinvalid

theorem perform_hands (h : r.Sound) (op : Op) (hspare : r.Spares invalidAt op) (hfuel : r.rest.length < fuel) :
    Hands r.rest op (r.perform invalidAt fuel op) := by
  cases op with
  | read size bounded => exact read_hands h size bounded
  | readLine bounded => exact readLine_hands h bounded hspare hfuel
  | readAll =>
    rw [perform]
    rcases hspare with hdrains | ⟨heq,hended,e,ha⟩
    · obtain ⟨r',hall,hsound,hnone⟩ := readAll_drains h hdrains hfuel []
      rw [hall]
      exact ⟨hsound,⟨rfl,hnone⟩,by rw [outcome,hnone]; exact Nat.zero_le _⟩
    · obtain ⟨r',hfails,hsound,hrest⟩ := readAll_fails h heq hended ha (Nat.zero_lt_of_lt hfuel) []
      rw [hfails]
      exact ⟨hsound,hrest,Nat.le_of_eq (congrArg List.length hrest)⟩
  | readAllText =>
    rw [perform,Reader.readAllText]
    rcases hspare with ⟨hdrains,hvalid⟩ | ⟨heq,hended,e,ha⟩
    · obtain ⟨r',hall,hsound,hnone⟩ := readAll_drains h hdrains hfuel []
      have htext : textOf invalidAt ([] ++ r.rest) r' = .ok r.rest r' := by
        rw [List.nil_append,textOf,hvalid]
        rfl
      rw [bind_ok hall,htext]
      exact ⟨hsound,⟨rfl,hnone⟩,by rw [outcome,hnone]; exact Nat.zero_le _⟩
    · obtain ⟨r',hfails,hsound,hrest⟩ := readAll_fails h heq hended ha (Nat.zero_lt_of_lt hfuel) []
      rw [bind_error hfails]
      exact ⟨hsound,hrest,Nat.le_of_eq (congrArg List.length hrest)⟩

/-! ### Runs -/

theorem faithful_of_spare (h : r.Sound) (ops : List Op) (hspare : AllSpare invalidAt fuel r ops) (hfuel : r.rest.length < fuel) :
    Faithful invalidAt fuel r ops := by
  induction ops generalizing r with
  | nil => trivial
  | cons op ops ih =>
    have hands := perform_hands h op hspare.1 hfuel
    exact ⟨hands.hands,ih hands.sound hspare.2 (Nat.lt_of_le_of_lt hands.length hfuel)⟩

/-- Every call of a run hands out the bytes that come next in the stream, whatever the pieces, the capacity and the order of the calls, if no
call before it lost any. -/
theorem reader_faithful (invalidAt : Encoding) (source : Source E) (capacity : ℤ) (ops : List Op) (fuel : ℕ) (hfuel : source.left.length < fuel)
    (hspare : AllSpare invalidAt fuel (new source capacity) ops) :
    (new source capacity).rest = source.left ∧ Faithful invalidAt fuel (new source capacity) ops :=
  ⟨rest_new source capacity,faithful_of_spare (sound_new source capacity) ops hspare (by rwa [rest_new])⟩

def pieces : Source Unit := ⟨[97,98,10,99],fun i => if i = 1 then .late else .chunk 1,true⟩

theorem reader_faithful_pieces : (new pieces 1).rest = [97,98,10,99] ∧
    Faithful (fun _ => none) 5 (new pieces 1) [.readLine true,.read 1 false,.readLine false,.readLine false] :=
  reader_faithful (fun _ => none) pieces 1 [.readLine true,.read 1 false,.readLine false,.readLine false] 5 (by decide)
    ⟨fun _ => ⟨rfl,fun hno => absurd (by decide) hno⟩,trivial,fun _ => ⟨rfl,fun hno => absurd (by decide) hno⟩,
      fun _ => ⟨rfl,fun _ => by decide⟩,trivial⟩

/-- A source that fails after its first byte. -/
def failing : Source Unit := ⟨[97],fun i => if i = 0 then .chunk 1 else .failed (),false⟩

/-- What was gathered before the source failed is lost. -/
theorem not_faithful_failing : ¬∀ (source : Source Unit) (capacity : ℤ) (ops : List Op), ∃ enough, ∀ fuel ≥ enough,
    Faithful (fun _ => none) fuel (new source capacity) ops := by
  intro hclaim
  obtain ⟨enough,henough⟩ := hclaim failing 1 [.readAll]
  have hfirst := (henough (enough + 2) (Nat.le_add_right _ _)).1
  cases hfirst

end Ens.Streams.Reader
