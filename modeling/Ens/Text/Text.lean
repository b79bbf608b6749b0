import Ens.Text.Utf8

/-! # Strings

A string is well-formed UTF-8, and an offset into it counts bytes. Reading a byte outside a
string and cutting one inside a character abort the program; a substring that does not abort
is a string again.
-/
namespace Ens

inductive Stop
  | abort
  | endless
  deriving DecidableEq, Repr

@[ext] structure Text where
  bytes : List ℕ
  valid : Utf8.Valid bytes
  deriving DecidableEq

def utf8 (s : String) : List ℕ := (s.toList.flatMap String.utf8EncodeChar).map UInt8.toNat

namespace Text

def length (t : Text) : ℕ := t.bytes.length

def byteAt (t : Text) (i : ℕ) : Except Stop ℕ :=
  match t.bytes[i]? with
  | some b => .ok b
  | none => .error .abort

def insideCharacter (value : ℕ) : Bool := decide (0x80 ≤ value) && decide (value ≤ 0xBF)

def checkBoundary (t : Text) (i : ℕ) : Except Stop Unit :=
  match t.bytes[i]? with
  | some b => if insideCharacter b then .error .abort else .ok ()
  | none => .ok ()

variable {t : Text} {i j : ℕ} {b : ℕ}

theorem checkBoundary_ok (hi : i ≤ t.length) :
    t.checkBoundary i = .ok () ↔ Utf8.Boundary t.bytes i := by
  unfold checkBoundary
  cases hb : t.bytes[i]? with
  | none => simp [Utf8.Boundary,hb,show i ≤ t.bytes.length from hi]
  | some b =>
    have hle : i ≤ t.bytes.length := hi
    simp [Utf8.Boundary,hb,hle,insideCharacter,Utf8.Tail]

def substring (t : Text) (start stop : ℕ) : Except Stop Text :=
  if h : stop ≤ t.length ∧ start ≤ stop ∧ t.checkBoundary start = .ok () ∧ t.checkBoundary stop = .ok () then
    .ok ⟨(t.bytes.take stop).drop start,
      t.valid.slice ((checkBoundary_ok (Nat.le_trans h.2.1 h.1)).mp h.2.2.1)
        ((checkBoundary_ok h.1).mp h.2.2.2) h.2.1⟩
  else .error .abort

def substringFrom (t : Text) (start : ℕ) : Except Stop Text := t.substring start t.length

def append (t u : Text) : Text := ⟨t.bytes ++ u.bytes,t.valid.append u.valid⟩

def empty : Text := ⟨[],.nil⟩

def ofScalar (n : ℕ) (h : Utf8.Scalar n) : Text :=
  ⟨Utf8.encode n,by simpa using Utf8.Valid.cons (Utf8.encode_char h) .nil⟩

@[simp] theorem append_bytes (t u : Text) : (t.append u).bytes = t.bytes ++ u.bytes := rfl

@[simp] theorem empty_bytes : empty.bytes = [] := rfl

@[simp] theorem ofScalar_bytes {n : ℕ} (h : Utf8.Scalar n) : (ofScalar n h).bytes = Utf8.encode n := rfl

theorem byteAt_ok (h : t.bytes[i]? = some b) : t.byteAt i = .ok b := by
  simp [byteAt,h]

theorem exists_byte (h : i < t.length) : ∃ b, t.bytes[i]? = some b :=
  ⟨t.bytes[i],List.getElem?_eq_getElem h⟩

/-- A substring between two boundaries does not abort. -/
theorem substring_ok (hi : Utf8.Boundary t.bytes i) (hj : Utf8.Boundary t.bytes j) (hij : i ≤ j) :
    ∃ u, t.substring i j = .ok u ∧ u.bytes = (t.bytes.take j).drop i := by
  have h : j ≤ t.length ∧ i ≤ j ∧ t.checkBoundary i = .ok () ∧ t.checkBoundary j = .ok () :=
    ⟨hj.1,hij,(checkBoundary_ok hi.1).mpr hi,(checkBoundary_ok hj.1).mpr hj⟩
  exact ⟨_,dif_pos h,rfl⟩

/-- A substring that does not abort is cut at boundaries. -/
theorem substring_boundary {u : Text} (h : t.substring i j = .ok u) :
    Utf8.Boundary t.bytes i ∧ Utf8.Boundary t.bytes j ∧ i ≤ j := by
  unfold substring at h
  split at h
  · rename_i hc
    exact ⟨(checkBoundary_ok (Nat.le_trans hc.2.1 hc.1)).mp hc.2.2.1,
      (checkBoundary_ok hc.1).mp hc.2.2.2,hc.2.1⟩
  · cases h

theorem substring_aborts (hj : ¬Utf8.Boundary t.bytes j) : t.substring i j = .error .abort :=
  dif_neg fun h => hj ((checkBoundary_ok h.1).mp h.2.2.2)

theorem substring_not_endless (t : Text) (i j : ℕ) : t.substring i j ≠ .error .endless := by
  unfold substring
  split <;> simp

theorem substringFrom_ok (hi : Utf8.Boundary t.bytes i) :
    ∃ u, t.substringFrom i = .ok u ∧ u.bytes = t.bytes.drop i := by
  obtain ⟨u,hu,hb⟩ := substring_ok hi (Utf8.boundary_length t.bytes) hi.1
  exact ⟨u,hu,by rw [hb,List.take_length]⟩

end Text
end Ens
