import Ens.Text.Decode

/-! # What a child is started with

Its values cross in a block of bytes, one after another with a NUL behind each, and the other side finds them by walking from NUL to NUL. A
value is cut at a NUL it holds, but the walk goes on inside it, so that the places agree exactly when no value before the last holds one.
Win32 takes a program and its arguments as one line instead. Each part is written bare or in quotes, with the backslashes doubled that would
otherwise escape a quote, and a program that splits the line by the usual rules finds exactly the parts it was written from.
-/
set_option linter.all false
namespace Ens.Processes
open Loop Decode

/-! ### Writing a block -/

def blockTotal (values : List Text) (trailing : ℕ) : ℕ := values.foldl (fun total value => total + value.length + 1) trailing

def copyRaw : List ℕ → List ℕ × ℕ → Except Stop (List ℕ × ℕ)
  | [], s => .ok s
  | b :: raw, (block,at') => do copyRaw raw (← put block at' b,at' + 1)

def copyValues : List Text → List ℕ × ℕ → Except Stop (List ℕ × ℕ)
  | [], s => .ok s
  | value :: rest, s => do
    let (block,at') ← copyRaw value.bytes s
    copyValues rest (← put block at' 0,at' + 1)

-- derives the equations once, for all the proofs below
attribute [local grind =] copyRaw copyValues

def separatedRun (values : List Text) (trailing : ℕ) : Except Stop (List ℕ × ℕ) :=
  copyValues values (List.replicate (blockTotal values trailing) 0,0)

def separatedBlock (values : List Text) (trailing : ℕ) : Except Stop (List ℕ) := do
  let (block,_) ← separatedRun values trailing
  .ok block

def argumentBlock (arguments : List Text) : Except Stop (List ℕ) := separatedBlock arguments 0

def givenEnvironmentBlock (vars : List Text) : Except Stop (List ℕ) :=
  if vars.length = 0 then .ok [0,0] else separatedBlock vars 1

/-! ### Reading a block -/

/-- The string that stands at a place, and how many bytes it takes without its NUL; a block with no NUL from there on is read past its end. -/
def stringAt (block : List ℕ) (cursor : ℕ) : Except Stop (List ℕ) :=
  if 0 ∈ block.drop cursor then .ok ((block.drop cursor).takeWhile (· ≠ 0)) else .error .abort

/-- The slots of a vector of pointers, each with the place it points to and the string that is read there. -/
def blockVector (block : List ℕ) : ℕ → ℕ → Except Stop (List (ℕ × List ℕ))
  | 0, _ => .ok []
  | count + 1, cursor => do
    let value ← stringAt block cursor
    .ok ((cursor,value) :: (← blockVector block count (cursor + value.length + 1)))

attribute [local grind =] blockVector

/-! ### What was written -/

def joined (values : List Text) : List ℕ := values.flatMap (fun value => value.bytes ++ [0])

theorem blockTotal_eq (values : List Text) (trailing : ℕ) : blockTotal values trailing = trailing + (joined values).length := by
  induction values generalizing trailing with
  | nil => rfl
  | cons value rest ih =>
    have h : blockTotal (value :: rest) trailing = blockTotal rest (trailing + value.length + 1) := rfl
    rw [h,ih]
    simp [joined,Text.length]
    omega

theorem put_within (done : List ℕ) (old : ℕ) (rest : List ℕ) (b : ℕ) :
    put (done ++ old :: rest) done.length b = .ok ((done ++ [b]) ++ rest) := by
  simp [put]

theorem copyRaw_ok (raw done free rest : List ℕ) (h : free.length = raw.length) :
    copyRaw raw (done ++ free ++ rest,done.length) = .ok ((done ++ raw) ++ rest,(done ++ raw).length) := by
  induction raw generalizing done free with
  | nil => simp_all [copyRaw]
  | cons b raw ih =>
    obtain ⟨old,free,rfl⟩ := List.exists_cons_of_length_eq_add_one h
    have hput := put_within done old (free ++ rest) b
    have hrec := ih (done ++ [b]) free (by simpa using h)
    simp only [List.append_assoc,List.cons_append] at hput hrec ⊢
    rw [copyRaw,hput,ok_bind]
    simpa using hrec

theorem copyValues_ok (values : List Text) (done free rest : List ℕ) (h : free.length = (joined values).length) :
    copyValues values (done ++ free ++ rest,done.length) = .ok (done ++ joined values ++ rest,(done ++ joined values).length) := by
  induction values generalizing done free with
  | nil => simp_all [copyValues,joined]
  | cons value values ih =>
    have hj : joined (value :: values) = value.bytes ++ 0 :: joined values := by simp [joined]
    rw [hj,List.length_append,List.length_cons] at h
    have htake : (free.take value.bytes.length).length = value.bytes.length := by
      rw [List.length_take]
      omega
    obtain ⟨old,later,hdrop⟩ : ∃ old later, free.drop value.bytes.length = old :: later := by
      apply List.exists_cons_of_ne_nil
      intro he
      have := congrArg List.length he
      simp at this
      omega
    have hlater : later.length = (joined values).length := by
      have := congrArg List.length hdrop
      simp at this
      omega
    have hfree : free = free.take value.bytes.length ++ old :: later := by
      rw [← hdrop,List.take_append_drop]
    have hraw := copyRaw_ok value.bytes done _ (old :: later ++ rest) htake
    have hput := put_within (done ++ value.bytes) old (later ++ rest) 0
    have hrec := ih (done ++ value.bytes ++ [0]) later hlater
    rw [hj,copyValues,hfree]
    simp only [List.append_assoc,List.cons_append,List.length_append] at hraw hput hrec ⊢
    rw [hraw,ok_bind]
    dsimp only
    rw [hput,ok_bind]
    simpa [Nat.add_assoc] using hrec

/-- A block is exactly its values, and behind the last of them only the bytes asked for besides. -/
theorem separatedRun_ok (values : List Text) (trailing : ℕ) :
    separatedRun values trailing = .ok (joined values ++ List.replicate trailing 0,(joined values).length) := by
  have h := copyValues_ok values [] (List.replicate (joined values).length 0) (List.replicate trailing 0) (by simp)
  rw [separatedRun,blockTotal_eq,Nat.add_comm,List.replicate_add]
  simpa using h

/-! ### What is read -/

def inStep : ℕ → List Text → List (ℕ × List ℕ)
  | _, [] => []
  | place, value :: rest => (place,value.bytes.takeWhile (· ≠ 0)) :: inStep (place + value.length + 1) rest

attribute [local grind =] inStep

theorem stringAt_value (done raw rest : List ℕ) : stringAt (done ++ raw ++ 0 :: rest) done.length = .ok (raw.takeWhile (· ≠ 0)) := by
  have hcut : (raw ++ 0 :: rest).takeWhile (· ≠ 0) = raw.takeWhile (· ≠ 0) := by
    induction raw with
    | nil => simp
    | cons b raw ih =>
      simp only [List.cons_append,List.takeWhile_cons]
      rw [ih]
  simp only [stringAt,List.append_assoc,List.drop_left,hcut]
  simp

theorem cut_shorter {raw : List ℕ} (h : 0 ∈ raw) : (raw.takeWhile (· ≠ 0)).length < raw.length := by
  have hle := (List.takeWhile_prefix (l := raw) (· ≠ 0)).length_le
  have hne : (raw.takeWhile (· ≠ 0)).length ≠ raw.length := by
    intro heq
    have hself := (List.takeWhile_prefix (l := raw) (· ≠ 0)).eq_of_length heq
    have := List.takeWhile_eq_self_iff.1 hself 0 h
    simp at this
  omega

theorem cut_whole {raw : List ℕ} (h : 0 ∉ raw) : raw.takeWhile (· ≠ 0) = raw := by
  apply List.takeWhile_eq_self_iff.2
  intro b hb
  have : b ≠ 0 := fun he => h (he ▸ hb)
  simpa using this

theorem blockVector_place {block : List ℕ} {count cursor : ℕ} {slot : ℕ × List ℕ} {slots : List (ℕ × List ℕ)}
    (h : blockVector block (count + 1) cursor = .ok (slot :: slots)) : slot.1 = cursor := by
  rw [blockVector] at h
  obtain ⟨value,-,h⟩ := bind_ok h
  obtain ⟨later,-,h⟩ := bind_ok h
  cases h
  rfl

theorem blockVector_iff (values : List Text) (done rest : List ℕ) :
    blockVector (done ++ joined values ++ rest) values.length done.length = .ok (inStep done.length values) ↔
      ∀ value ∈ values.dropLast, 0 ∉ value.bytes := by
  induction values generalizing done with
  | nil => simp [blockVector,inStep]
  | cons value values ih =>
    have hblock : done ++ joined (value :: values) ++ rest = done ++ value.bytes ++ 0 :: (joined values ++ rest) := by simp [joined]
    have hread := stringAt_value done value.bytes (joined values ++ rest)
    rw [hblock,List.length_cons,blockVector,hread,ok_bind,inStep]
    cases values with
    | nil => simp [blockVector,inStep]
    | cons next values =>
      by_cases hnul : 0 ∈ value.bytes
      · have hshort := cut_shorter hnul
        refine iff_of_false (fun h => ?_) (fun h => h value (by simp) hnul)
        obtain ⟨later,hlater,h⟩ := bind_ok h
        simp only [Except.ok.injEq,List.cons.injEq,true_and] at h
        rw [h,inStep] at hlater
        have := blockVector_place hlater
        simp only [Text.length] at this
        omega
      · have hnext := ih (done ++ value.bytes ++ [0])
        have hlength : (done ++ value.bytes ++ [0]).length = done.length + value.length + 1 := by simp [Text.length,Nat.add_assoc]
        rw [hlength] at hnext
        simp only [List.append_assoc,List.cons_append,List.nil_append] at hnext ⊢
        rw [cut_whole hnul,List.dropLast_cons_of_ne_nil (by simp),List.forall_mem_cons,← hnext]
        simp only [hnul,not_false_eq_true,true_and,Text.length]
        constructor
        · intro h
          obtain ⟨later,hlater,h⟩ := bind_ok h
          simp only [Except.ok.injEq,List.cons.injEq,true_and] at h
          rw [hlater,h]
        · intro h
          rw [h]
          rfl

/-! ### The whole block -/

/-- Writing and reading agree on a list of values: the block is as large as what was written, and each string read from it stands at the
place of its value and is that value cut at its first NUL; the same is read from the block of an environment. -/
def ReadInStep (values : List Text) : Prop :=
  (∃ block written, separatedRun values 0 = .ok (block,written) ∧ argumentBlock values = .ok block ∧ block.length = written ∧
    blockVector block values.length 0 = .ok (inStep 0 values)) ∧
  ∃ block, givenEnvironmentBlock values = .ok block ∧ blockVector block values.length 0 = .ok (inStep 0 values)

theorem separatedBlock_ok (values : List Text) (trailing : ℕ) :
    separatedBlock values trailing = .ok (joined values ++ List.replicate trailing 0) := by
  rw [separatedBlock,separatedRun_ok]
  rfl

theorem givenEnvironmentBlock_iff (values : List Text) :
    (∃ block, givenEnvironmentBlock values = .ok block ∧ blockVector block values.length 0 = .ok (inStep 0 values)) ↔
      ∀ value ∈ values.dropLast, 0 ∉ value.bytes := by
  have hwalk := blockVector_iff values [] (List.replicate 1 0)
  cases values with
  | nil => simp [givenEnvironmentBlock,blockVector,inStep]
  | cons value values =>
    have hblock : givenEnvironmentBlock (value :: values) = .ok (joined (value :: values) ++ List.replicate 1 0) := by
      simp [givenEnvironmentBlock,separatedBlock_ok]
    simp only [hblock,Except.ok.injEq,exists_eq_left']
    simpa using hwalk

theorem readInStep_iff (values : List Text) : ReadInStep values ↔ ∀ value ∈ values.dropLast, 0 ∉ value.bytes := by
  have hwalk := blockVector_iff values [] (List.replicate 0 0)
  unfold ReadInStep
  rw [givenEnvironmentBlock_iff]
  constructor
  · intro h
    exact h.2
  · intro h
    refine ⟨⟨_,_,separatedRun_ok values 0,separatedBlock_ok values 0,by simp,?_⟩,h⟩
    simpa using hwalk.2 h

/-- A value with a NUL inside is read as two, and the value behind it not at all. -/
theorem not_readInStep : ¬ ∀ values, ReadInStep values := by
  intro h
  obtain ⟨⟨block,_,-,hblock,-,hread⟩,-⟩ := h [⟨[97,0,98],Utf8.valid_ascii (by decide)⟩,⟨[99],Utf8.valid_ascii (by decide)⟩]
  have hwritten : argumentBlock [⟨[97,0,98],Utf8.valid_ascii (by decide)⟩,⟨[99],Utf8.valid_ascii (by decide)⟩] =
    .ok [97,0,98,0,99,0] := by rfl
  rw [hwritten] at hblock
  cases hblock
  exact absurd hread (by decide)

/-! ### Writing a line -/

def needsQuotes (value : List Char) : Bool :=
  value.isEmpty || value.contains ' ' || value.contains '\t' || value.contains '"'

def appendBackslashes (part : List Char) : ℕ → List Char
  | 0 => part
  | count + 1 => appendBackslashes (part ++ ['\\']) count

def quotedRounds : List Char → List Char → ℕ → List Char × ℕ
  | [], part, backslashes => (part,backslashes)
  | character :: rest, part, backslashes =>
    if character = '\\' then quotedRounds rest part (backslashes + 1)
    else
      let part := if character = '"' then appendBackslashes part (backslashes * 2 + 1) else appendBackslashes part backslashes
      quotedRounds rest (part ++ [character]) 0

def quoted (value : List Char) : List Char :=
  if needsQuotes value then
    let (part,backslashes) := quotedRounds value ['"'] 0
    appendBackslashes part (backslashes * 2) ++ ['"']
  else value

def commandLineOf (program : List Char) (arguments : List (List Char)) : List Char :=
  arguments.foldl (fun line argument => line ++ [' '] ++ quoted argument) (quoted program)

/-! ### Splitting a line -/

def blank (c : Char) : Bool := c = ' ' || c = '\t'

/-- The program a line names and what follows it: quotes open and close a quoted part, and a backslash means itself. -/
def programName : Bool → List Char → List Char × List Char
  | _, [] => ([],[])
  | within, c :: rest =>
    if c = '"' then programName (!within) rest
    else if blank c ∧ within = false then ([],c :: rest)
    else ((c :: (programName within rest).1),(programName within rest).2)

/-- The arguments a line names. Of the backslashes before a quote every two give one, and the quote is a character of the argument when one
is left over; else it opens or closes a quoted part. `slashes` counts the backslashes just read and `current` is the argument begun. -/
def argumentsFrom (within : Bool) (slashes : ℕ) (current : Option (List Char)) : List Char → List (List Char)
  | [] => (current.map (· ++ List.replicate slashes '\\')).toList
  | c :: rest =>
    if c = '\\' then argumentsFrom within (slashes + 1) (some (current.getD [])) rest
    else if c = '"' then
      if slashes % 2 = 0 then argumentsFrom (!within) 0 (some (current.getD [] ++ List.replicate (slashes / 2) '\\')) rest
      else argumentsFrom within 0 (some (current.getD [] ++ List.replicate (slashes / 2) '\\' ++ ['"'])) rest
    else if blank c ∧ within = false then
      (current.map (· ++ List.replicate slashes '\\')).toList ++ argumentsFrom false 0 none rest
    else argumentsFrom within 0 (some (current.getD [] ++ List.replicate slashes '\\' ++ [c])) rest

attribute [local grind =] appendBackslashes quotedRounds programName argumentsFrom

def split (line : List Char) : List Char × List (List Char) :=
  ((programName false line).1,argumentsFrom false 0 none (programName false line).2)

/-! ### The parts as they are written -/

theorem appendBackslashes_eq (part : List Char) (count : ℕ) : appendBackslashes part count = part ++ List.replicate count '\\' := by
  induction count generalizing part with
  | zero => simp [appendBackslashes]
  | succ count ih => simp [appendBackslashes,ih,List.replicate_succ]

/-- What stands between the quotes of a part, after a run of backslashes already read. -/
def escaped : ℕ → List Char → List Char
  | backslashes, [] => List.replicate (backslashes * 2) '\\'
  | backslashes, c :: rest =>
    if c = '\\' then escaped (backslashes + 1) rest
    else List.replicate (if c = '"' then backslashes * 2 + 1 else backslashes) '\\' ++ c :: escaped 0 rest

attribute [local grind =] escaped

theorem quotedRounds_eq (value part : List Char) (backslashes : ℕ) :
    appendBackslashes (quotedRounds value part backslashes).1 ((quotedRounds value part backslashes).2 * 2) =
      part ++ escaped backslashes value := by
  induction value generalizing part backslashes with
  | nil => simp [quotedRounds,escaped,appendBackslashes_eq]
  | cons c rest ih =>
    by_cases hc : c = '\\'
    · simp only [quotedRounds,escaped,hc,if_true]
      exact ih part (backslashes + 1)
    · by_cases hq : c = '"'
      · simp only [quotedRounds,escaped,hq,if_true]
        simp [ih,appendBackslashes_eq]
      · simp only [quotedRounds,escaped,hc,hq,if_false]
        simp [ih,appendBackslashes_eq]

theorem quoted_eq (value : List Char) : quoted value = if needsQuotes value then '"' :: escaped 0 value ++ ['"'] else value := by
  simp [quoted,quotedRounds_eq]

theorem commandLineOf_eq (program : List Char) (arguments : List (List Char)) :
    commandLineOf program arguments = quoted program ++ arguments.flatMap (fun argument => ' ' :: quoted argument) := by
  unfold commandLineOf
  generalize quoted program = line
  induction arguments generalizing line with
  | nil => simp
  | cons argument rest ih =>
    rw [List.foldl_cons,ih,List.flatMap_cons]
    simp

theorem not_needsQuotes {value : List Char} (h : needsQuotes value = false) : value ≠ [] ∧ ' ' ∉ value ∧ '\t' ∉ value ∧ '"' ∉ value := by
  simpa [needsQuotes,and_assoc] using h

/-! ### Reading a part again -/

/-- What may stand behind a part: nothing, or the blank before the next. -/
def Ends (rest : List Char) : Prop := rest = [] ∨ ∃ more, rest = ' ' :: more

theorem ends_tail (arguments : List (List Char)) : Ends (arguments.flatMap (fun argument => ' ' :: quoted argument)) := by
  cases arguments with
  | nil => exact .inl rfl
  | cons argument rest => exact .inr ⟨_,rfl⟩

theorem argumentsFrom_slashes (within : Bool) (slashes count : ℕ) (argument rest : List Char) :
    argumentsFrom within slashes (some argument) (List.replicate count '\\' ++ rest) =
      argumentsFrom within (slashes + count) (some argument) rest := by
  induction count generalizing slashes with
  | zero => simp
  | succ count ih =>
    rw [List.replicate_succ,List.cons_append,argumentsFrom]
    simp only [if_true,Option.getD_some,ih]
    congr 1
    omega

theorem argumentsFrom_end {rest : List Char} (hr : Ends rest) (slashes : ℕ) (argument : List Char) :
    argumentsFrom false slashes (some argument) rest =
      (argument ++ List.replicate slashes '\\') :: argumentsFrom false 0 none rest := by
  rcases hr with rfl | ⟨more,rfl⟩
  · simp [argumentsFrom]
  · simp [argumentsFrom,blank]

/-- Behind its opening quote an escaped part is read to its closing one, and gives the value it was written from. -/
theorem argumentsFrom_escaped (value argument rest : List Char) (slashes : ℕ) :
    argumentsFrom true 0 (some argument) (escaped slashes value ++ '"' :: rest) =
      argumentsFrom false 0 (some (argument ++ List.replicate slashes '\\' ++ value)) rest := by
  induction value generalizing argument slashes with
  | nil =>
    rw [escaped,argumentsFrom_slashes,argumentsFrom]
    simp
  | cons c value ih =>
    by_cases hc : c = '\\'
    · simp only [escaped,hc,if_true,ih]
      rw [List.replicate_succ']
      simp
    · simp only [escaped,hc,if_false]
      rw [List.append_assoc,argumentsFrom_slashes,List.cons_append,argumentsFrom]
      by_cases hq : c = '"'
      · have hodd : (slashes * 2 + 1) % 2 = 1 := by omega
        have hhalf : (slashes * 2 + 1) / 2 = slashes := by omega
        simp [hq,hodd,hhalf,ih]
      · simp [hc,hq,ih]

theorem argumentsFrom_bare {value : List Char} (hs : ' ' ∉ value) (ht : '\t' ∉ value) (hq : '"' ∉ value) {rest : List Char}
    (hr : Ends rest) (slashes : ℕ) (argument : List Char) :
    argumentsFrom false slashes (some argument) (value ++ rest) =
      (argument ++ List.replicate slashes '\\' ++ value) :: argumentsFrom false 0 none rest := by
  induction value generalizing slashes argument with
  | nil => simp [argumentsFrom_end hr]
  | cons c value ih =>
    simp only [List.mem_cons,not_or] at hs ht hq
    rw [List.cons_append,argumentsFrom]
    by_cases hc : c = '\\'
    · simp only [hc,if_true,Option.getD_some]
      rw [ih hs.2 ht.2 hq.2,List.replicate_succ']
      simp
    · have hb : blank c = false := by simp [blank,Ne.symm hs.1,Ne.symm ht.1]
      simp [hc,Ne.symm hq.1,hb,ih hs.2 ht.2 hq.2]

@[simp] theorem argumentsFrom_blank (rest : List Char) : argumentsFrom false 0 none (' ' :: rest) = argumentsFrom false 0 none rest := by
  simp [argumentsFrom,blank]

@[simp] theorem argumentsFrom_open (rest : List Char) : argumentsFrom false 0 none ('"' :: rest) = argumentsFrom true 0 (some []) rest := by
  simp [argumentsFrom]

theorem argumentsFrom_quoted {rest : List Char} (hr : Ends rest) (value : List Char) :
    argumentsFrom false 0 none (' ' :: quoted value ++ rest) = value :: argumentsFrom false 0 none rest := by
  rw [quoted_eq]
  split
  case isTrue h =>
    simp [argumentsFrom_escaped,argumentsFrom_end hr]
  case isFalse h =>
    obtain ⟨hn,hs,ht,hq⟩ := not_needsQuotes (by simpa using h)
    obtain ⟨c,value,rfl⟩ := List.exists_cons_of_ne_nil hn
    simp only [List.mem_cons,not_or] at hs ht hq
    rw [List.cons_append,argumentsFrom_blank,List.cons_append,argumentsFrom]
    by_cases hc : c = '\\'
    · simp [hc,argumentsFrom_bare hs.2 ht.2 hq.2 hr]
    · have hb : blank c = false := by simp [blank,Ne.symm hs.1,Ne.symm ht.1]
      simp [hc,Ne.symm hq.1,hb,argumentsFrom_bare hs.2 ht.2 hq.2 hr]

theorem argumentsFrom_tail (arguments : List (List Char)) :
    argumentsFrom false 0 none (arguments.flatMap (fun argument => ' ' :: quoted argument)) = arguments := by
  induction arguments with
  | nil => rfl
  | cons argument rest ih => rw [List.flatMap_cons,argumentsFrom_quoted (ends_tail rest),ih]

/-! ### Reading the program again -/

theorem escaped_plain {value : List Char} (hq : '"' ∉ value) (slashes : ℕ)
    (hl : (List.replicate slashes '\\' ++ value).getLast? ≠ some '\\') : escaped slashes value = List.replicate slashes '\\' ++ value := by
  induction value generalizing slashes with
  | nil =>
    cases slashes with
    | zero => rfl
    | succ slashes => simp [List.replicate_succ'] at hl
  | cons c value ih =>
    simp only [List.mem_cons,not_or] at hq
    by_cases hc : c = '\\'
    · subst hc
      have heq : List.replicate slashes '\\' ++ '\\' :: value = List.replicate (slashes + 1) '\\' ++ value := by
        rw [List.replicate_succ']
        simp
      rw [heq] at hl ⊢
      simpa [escaped] using ih hq.2 (slashes + 1) hl
    · have hl' : (List.replicate 0 '\\' ++ value).getLast? ≠ some '\\' := by
        cases value with
        | nil => simp
        | cons d value => simpa [List.getLast?_append,List.getLast?_cons_cons] using hl
      simp [escaped,hc,Ne.symm hq.1,ih hq.2 0 hl']

theorem programName_within {value : List Char} (hq : '"' ∉ value) {rest : List Char} (hr : Ends rest) :
    programName true (value ++ '"' :: rest) = (value,rest) := by
  induction value with
  | nil =>
    rcases hr with rfl | ⟨more,rfl⟩
    · simp [programName]
    · simp [programName,blank]
  | cons c value ih =>
    simp only [List.mem_cons,not_or] at hq
    rw [List.cons_append,programName]
    simp [Ne.symm hq.1,ih hq.2]

theorem programName_bare {value : List Char} (hs : ' ' ∉ value) (ht : '\t' ∉ value) (hq : '"' ∉ value) {rest : List Char} (hr : Ends rest) :
    programName false (value ++ rest) = (value,rest) := by
  induction value with
  | nil =>
    rcases hr with rfl | ⟨more,rfl⟩
    · simp [programName]
    · simp [programName,blank]
  | cons c value ih =>
    simp only [List.mem_cons,not_or] at hs ht hq
    have hb : blank c = false := by simp [blank,Ne.symm hs.1,Ne.symm ht.1]
    rw [List.cons_append,programName]
    simp [Ne.symm hq.1,hb,ih hs.2 ht.2 hq.2]

theorem programName_quoted {program : List Char} (hq : '"' ∉ program) (hl : program.getLast? ≠ some '\\') {rest : List Char} (hr : Ends rest) :
    programName false (quoted program ++ rest) = (program,rest) := by
  rw [quoted_eq]
  split
  case isTrue h =>
    have he : escaped 0 program = program := by simpa using escaped_plain hq 0 (by simpa using hl)
    simp only [he,List.cons_append,List.append_assoc,List.nil_append]
    rw [programName]
    simpa using programName_within hq hr
  case isFalse h =>
    obtain ⟨-,hs,ht,-⟩ := not_needsQuotes (by simpa using h)
    exact programName_bare hs ht hq hr

/-! ### The whole line -/

/-- A line splits into the program and the arguments it was written from. -/
theorem split_commandLineOf (program : List Char) (arguments : List (List Char)) (hq : '"' ∉ program) (hl : program.getLast? ≠ some '\\') :
    split (commandLineOf program arguments) = (program,arguments) := by
  have hp := programName_quoted hq hl (ends_tail arguments)
  rw [split,commandLineOf_eq,hp,argumentsFrom_tail]

/-- Spaces, a quote behind a backslash, backslashes at the end and no character at all. -/
theorem split_commandLineOf_here :
    split (commandLineOf "C:\\a b\\run.exe".toList ["x\\\"y".toList,[],"d\\e f\\\\".toList,"/C".toList]) =
      ("C:\\a b\\run.exe".toList,["x\\\"y".toList,[],"d\\e f\\\\".toList,"/C".toList]) :=
  split_commandLineOf _ _ (by decide) (by decide)

end Ens.Processes
