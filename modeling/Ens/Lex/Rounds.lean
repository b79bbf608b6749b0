import Ens.Lex.WithinString
import Mathlib.Algebra.BigOperators.Group.List.Basic
import Mathlib.Algebra.Ring.Int.Defs
import Mathlib.Logic.Relation

/-! # Rounds of the scan where a text stands

The rounds a text takes on its own are taken again inside a hole, as long as the hole does not end within it: the depth
of the hole is what the braces before the text and those of the text so far leave open.
-/
set_option linter.all false
namespace Ens.Lex
open Loop Utf8

variable {h input : Text} {n : ℕ}

def depth (pieces : List RawToken) : ℤ :=
  pieces.countP (fun p => decide (p.kind = .openBrace)) - pieces.countP fun p => decide (p.kind = .closeBrace)

def nesting (pieces : List RawToken) : ℤ :=
  pieces.countP (fun p => decide (p.kind = .interpolatedStringStart)) -
    pieces.countP fun p => decide (p.kind = .interpolatedStringEnd)

namespace Lexer
variable {s s' s₁ v v₁ : Lexer} {P : List RawToken} {D : List Diagnostic} {base : List ℤ} {open₀ d e : ℤ} {kind : SyntaxKind} {c : ℕ}

def braceOf (kind : SyntaxKind) : ℤ := if kind = .openBrace then 1 else if kind = .closeBrace then -1 else 0

def nestOf (kind : SyntaxKind) : ℤ := if kind = .interpolatedStringStart then 1 else if kind = .interpolatedStringEnd then -1 else 0

theorem Adds.depth (ha : Adds s s' kind) : Lex.depth s'.pieces = Lex.depth s.pieces + braceOf kind := by
  rw [ha.pieces,Lex.depth,Lex.depth,List.countP_append,List.countP_append,braceOf]
  by_cases h₁ : kind = .openBrace
  · subst h₁
    simp
    omega
  · by_cases h₂ : kind = .closeBrace
    · subst h₂
      simp
      omega
    · simp [h₁,h₂]

theorem Adds.nesting (ha : Adds s s' kind) : Lex.nesting s'.pieces = Lex.nesting s.pieces + nestOf kind := by
  rw [ha.pieces,Lex.nesting,Lex.nesting,List.countP_append,List.countP_append,nestOf]
  by_cases h₁ : kind = .interpolatedStringStart
  · subst h₁
    simp
    omega
  · by_cases h₂ : kind = .interpolatedStringEnd
    · subst h₂
      simp
      omega
    · simp [h₁,h₂]

/-- What a token does to the braces and the strings left open is what its first byte says. -/
theorem Makes.counts (hm : Makes input s s' c kind) : nestOf kind = s'.holes.length - s.holes.length ∧ s'.holes.sum = s.holes.sum ∧
    braceOf kind = (if c = '{'.toNat then 1 else if c = '}'.toNat then -1 else 0) := by
  cases hm with
  | plain hk hc hh =>
    rw [hh,if_neg hc.1,if_neg hc.2]
    refine ⟨?_,rfl,?_⟩
    · rw [nestOf,if_neg (by rintro rfl; cases hk),if_neg (by rintro rfl; cases hk)]
      omega
    · rw [braceOf,if_neg (by rintro rfl; cases hk),if_neg (by rintro rfl; cases hk)]
  | openBrace hc hh =>
    rw [hh,hc]
    exact ⟨by rw [Int.sub_self]; rfl,rfl,rfl⟩
  | closeBrace hc hh =>
    rw [hh,hc]
    exact ⟨by rw [Int.sub_self]; rfl,rfl,rfl⟩
  | start hc hh =>
    rw [hh,hc]
    refine ⟨?_,?_,rfl⟩
    · rw [List.length_append]
      simp [nestOf]
    · simp

/-- What a text leaves open on its own is open where it stands, beside what is open before it: the braces outside its
strings in the hole it stands in, and the others in the holes of its strings. -/
structure Level (open₀ d : ℤ) (s : Lexer) : Prop where
  holes : HolesOk s
  braces : open₀ + Lex.depth s.pieces = d + s.holes.sum
  strings : Lex.nesting s.pieces = s.holes.length

theorem token_follows (hw : Within h input n) (hb : Boundary h.bytes s.position) (hlt : s.position < h.length) (hl : Level open₀ d s)
    (hs₁ : HolesOk s₁) (hp : s₁.position = s.position) (hq : s₁.pieces = s.pieces) (hd : s₁.diagnostics = s.diagnostics)
    (hn : s₁.holes.length = s.holes.length) (hf : Follows n P D (base ++ [e]) s₁ v₁)
    (hsum : e + s₁.holes.sum = d + s.holes.sum + if s.peek h 0 = '{'.toNat then 1 else if s.peek h 0 = '}'.toNat then -1 else 0)
    (hok : s₁.scanToken h s.position (s.peek h 0) = .ok s') (hquiet : s'.diagnostics.length = s.diagnostics.length)
    (hallowed : Allowed input n s s') :
    ∃ v', v₁.scanToken input (n + s.position) (v₁.peek input 0) = .ok v' ∧ Follows n P D (base ++ [e]) s' v' ∧ Level open₀ e s' := by
  have hpeek : s.peek h 0 = s₁.peek h 0 := by rw [peek,peek,hp]
  rw [hpeek,← hp] at hok
  rw [hpeek] at hsum
  obtain ⟨hh,kind,hadds,hm⟩ := scanToken_makes hs₁ (hp ▸ hb) (hp ▸ hlt) hok
  have hadds' {k : SyntaxKind} (ha : Adds s₁ s' k) : Adds s s' k := ⟨by rw [ha.pieces,hp,hq],by rw [← hd]; exact ha.reports⟩
  have hback {k : SyntaxKind} (ha : Adds s s' k) : Adds s₁ s' k := ⟨by rw [ha.pieces,hp,hq],by rw [hd]; exact ha.reports⟩
  obtain ⟨v',hv',hf'⟩ := scanToken_follows hw hf hs₁ (hp ▸ hb) (hp ▸ hlt) hok (by rw [hd]; exact hquiet)
    fun k ha => hallowed k (hadds' ha)
  obtain ⟨hnest,hsame,hbrace⟩ := hm.counts
  refine ⟨v',?_,hf',hh,?_,?_⟩
  · rw [← hp,← hf.position]
    exact hv'
  · rw [(hadds' hadds).depth,← Int.add_assoc,hl.braces,hbrace,hsame,hsum]
  · rw [(hadds' hadds).nesting,hl.strings,hnest,hn]
    omega

theorem scanPiece_follows (hw : Within h input n) (hf : Follows n P D (base ++ [d]) s v) (hl : Level open₀ d s)
    (hb : Boundary h.bytes s.position) (hlt : s.position < h.length) (hok : s.scanPiece h = .ok s')
    (hq : s'.diagnostics.length = s.diagnostics.length) (hallowed : Allowed input n s s') (hopen : 0 ≤ open₀ + Lex.depth s'.pieces) :
    ∃ v' e, v.scanPiece input = .ok v' ∧ Follows n P D (base ++ [e]) s' v' ∧ Level open₀ e s' := by
  have hv := hf.position
  have hs := hl.holes
  have hc : v.peek input 0 = s.peek h 0 := peek_within hw hv (k := 0) hlt
  -- a hole of the lexer in the source whose depth changes, or not
  have hset {l : List ℤ} {x y : ℤ} (hx : v.holes = l ++ [x]) : ∃ v₁, v.setHoleTop y = .ok v₁ ∧ HolesOk v₁ ∧ v₁.holes = l ++ [y] ∧
      v₁.position = v.position ∧ v₁.pieces = v.pieces ∧ v₁.diagnostics = v.diagnostics := setHoleTop_holes y hf.ok hx
  have hne : v.holeStackEmpty = false := by
    rw [← Bool.not_eq_true,holeStackEmpty_iff hf.ok,hf.holes]
    simp
  unfold scanPiece at hok ⊢
  dsimp only at hok ⊢
  rw [hne,if_neg Bool.false_ne_true,hc]
  by_cases hnil : s.holes = []
  · -- outside every string of the text, where its braces are those of the hole it stands in
    rw [if_pos ((holeStackEmpty_iff hs).mpr hnil)] at hok
    have htop : v.holes = base ++ [d] := by rw [hf.holes,hnil,List.append_nil]
    rw [holeTop_eq hf.ok htop,ok_bind]
    have hmove {y : ℤ} (hy : y + s.holes.sum = d + s.holes.sum + if s.peek h 0 = '{'.toNat then 1 else if s.peek h 0 = '}'.toNat then -1 else 0) :
        ∃ v' e, (v.setHoleTop y >>= fun v₁ => v₁.scanToken input v.position (s.peek h 0)) = .ok v' ∧
          Follows n P D (base ++ [e]) s' v' ∧ Level open₀ e s' := by
      obtain ⟨v₁,h₁,hok₁,hh₁,hp₁,hq₁,hd₁⟩ := hset (y := y) htop
      have hf₁ : Follows n P D (base ++ [y]) s v₁ :=
        ⟨hp₁.trans hv,by rw [hh₁,hnil,List.append_nil],hok₁,hq₁.trans hf.pieces,hd₁.trans hf.diagnostics⟩
      obtain ⟨v',hv',hf',hl'⟩ := token_follows hw hb hlt hl hs rfl rfl rfl rfl hf₁ hy hok hq hallowed
      refine ⟨v',y,?_,hf',hl'⟩
      rw [h₁,ok_bind,hv]
      have : v₁.peek input 0 = s.peek h 0 := by rw [← hc,peek,peek,hp₁]
      rwa [this] at hv'
    by_cases hclose : s.peek h 0 = '}'.toNat
    · have hpos : d ≠ 0 := by
        rintro rfl
        obtain ⟨-,kind,hadds,hm⟩ := scanToken_makes hs hb hlt hok
        obtain ⟨-,-,hbrace⟩ := hm.counts
        rw [hclose,if_neg (by decide),if_pos rfl] at hbrace
        rw [hadds.depth,← Int.add_assoc,hl.braces,hbrace,hnil] at hopen
        simp at hopen
      rw [if_neg fun hboth => hpos hboth.2,if_neg (by rw [hclose]; decide),if_pos hclose]
      exact hmove (by rw [hclose,if_neg (by decide),if_pos rfl]; omega)
    · rw [if_neg fun hboth => hclose hboth.1]
      by_cases hbrace : s.peek h 0 = '{'.toNat
      · rw [if_pos hbrace]
        exact hmove (by rw [if_pos hbrace]; omega)
      · rw [if_neg hbrace,if_neg hclose]
        obtain ⟨v',hv',hf',hl'⟩ := token_follows hw hb hlt hl hs rfl rfl rfl rfl hf
          (by rw [if_neg hbrace,if_neg hclose]; omega) hok hq hallowed
        rw [hc] at hv'
        exact ⟨v',d,by rw [hv]; exact hv',hf',hl'⟩
  · -- inside a string of the text, whose holes are the same in both
    obtain ⟨l,x,hx⟩ : ∃ l x, s.holes = l ++ [x] := ⟨_,_,(List.dropLast_append_getLast hnil).symm⟩
    have htop : v.holes = ((base ++ [d]) ++ l) ++ [x] := by rw [hf.holes,hx,← List.append_assoc]
    rw [if_neg fun hempty => hnil ((holeStackEmpty_iff hs).mp hempty),holeTop_eq hs hx,ok_bind] at hok
    rw [holeTop_eq hf.ok htop,ok_bind]
    have hmove {y : ℤ} (hy : y = x + if s.peek h 0 = '{'.toNat then 1 else if s.peek h 0 = '}'.toNat then -1 else 0)
        (hok : (s.setHoleTop y >>= fun s₁ => s₁.scanToken h s.position (s.peek h 0)) = .ok s') :
        ∃ v' e, (v.setHoleTop y >>= fun v₁ => v₁.scanToken input v.position (s.peek h 0)) = .ok v' ∧
          Follows n P D (base ++ [e]) s' v' ∧ Level open₀ e s' := by
      obtain ⟨v₁,h₁,hok₁,hh₁,hp₁,hq₁,hd₁⟩ := hset (y := y) htop
      obtain ⟨s₁,h₁',hs₁,hh₁',hp₁',hq₁',hd₁'⟩ := setHoleTop_holes y hs hx
      rw [h₁',ok_bind] at hok
      have hf₁ : Follows n P D (base ++ [d]) s₁ v₁ :=
        ⟨by rw [hp₁,hp₁',hv],by rw [hh₁,hh₁',List.append_assoc],hok₁,by rw [hq₁,hq₁',hf.pieces],hd₁.trans hf.diagnostics⟩
      have hlen : s₁.holes.length = s.holes.length := by rw [hh₁',hx,List.length_append,List.length_append]; rfl
      have hsum : d + s₁.holes.sum = d + s.holes.sum + if s.peek h 0 = '{'.toNat then 1 else if s.peek h 0 = '}'.toNat then -1 else 0 := by
        rw [hh₁',hx,List.sum_append,List.sum_append,List.sum_singleton,List.sum_singleton,hy]
        omega
      obtain ⟨v',hv',hf',hl'⟩ := token_follows hw hb hlt hl hs₁ hp₁' hq₁' hd₁' hlen hf₁ hsum hok hq hallowed
      refine ⟨v',d,?_,hf',hl'⟩
      rw [h₁,ok_bind,hv]
      have : v₁.peek input 0 = s.peek h 0 := by rw [← hc,peek,peek,hp₁]
      rwa [this] at hv'
    by_cases hclose : s.peek h 0 = '}'.toNat ∧ x = 0
    · rw [if_pos hclose] at hok
      rw [if_pos hclose,advance_within hw hv hlt,hv]
      have hpos := advance_position hlt
      obtain ⟨hh,hm⟩ := lexStringBody_makes (advance_ahead h s) hs (by omega) hok
      obtain ⟨v',hv',hf'⟩ := lexStringBody_follows hw hf hs (advance_ahead h s) (by omega) (fun _ => hnil) hok hq
        fun k ha => (hallowed k ha).2.2
      refine ⟨v',d,hv',hf',hh,?_,?_⟩
      · rcases hm with ⟨ha,hsame,-⟩ | ⟨ha,hpop⟩
        · rw [ha.depth,← Int.add_assoc,hl.braces,hsame]
          exact Int.add_zero _
        · rw [ha.depth,← Int.add_assoc,hl.braces,hpop l x hx,hx,hclose.2,List.sum_append]
          simp [braceOf]
      · rcases hm with ⟨ha,hsame,-⟩ | ⟨ha,hpop⟩
        · rw [ha.nesting,hl.strings,hsame]
          exact Int.add_zero _
        · rw [ha.nesting,hl.strings,hpop l x hx,hx,List.length_append]
          simp [nestOf]
    · rw [if_neg hclose] at hok ⊢
      by_cases hbrace : s.peek h 0 = '{'.toNat
      · rw [if_pos hbrace] at hok ⊢
        exact hmove (by rw [if_pos hbrace]) hok
      · rw [if_neg hbrace] at hok ⊢
        by_cases hshut : s.peek h 0 = '}'.toNat
        · rw [if_pos hshut] at hok ⊢
          exact hmove (by rw [if_neg hbrace,if_pos hshut]; rfl) hok
        · rw [if_neg hshut] at hok ⊢
          obtain ⟨v',hv',hf',hl'⟩ := token_follows hw hb hlt hl hs rfl rfl rfl rfl hf
            (by rw [if_neg hbrace,if_neg hshut]; omega) hok hq hallowed
          rw [hc] at hv'
          exact ⟨v',d,by rw [hv]; exact hv',hf',hl'⟩

/-! ### Rounds -/

def Rounds (input : Text) : Lexer → Lexer → Prop :=
  Relation.ReflTransGen fun s s' => s.position < input.length ∧ s.scanPiece input = .ok s'

def start (input : Text) : Lexer := ({} : Lexer).scanByteOrderMark input

theorem rounds_tiled (hr : Rounds input s s') (ht : Tiled input s) : Tiled input s' := by
  induction hr with
  | refl => exact ht
  | tail _ hstep ih =>
    obtain ⟨t,hok,hscan⟩ := scanPiece_scans ih.holes ih.boundary hstep.1
    cases Except.ok.inj (hok.symm.trans hstep.2)
    exact hscan.tiled ih

/-- What a run of rounds adds: pieces, each hole of which is seen as one, and reports. -/
theorem rounds_adds (hr : Rounds input s s') (hs : HolesOk s) (hb : Boundary input.bytes s.position) :
    (∃ added, s'.pieces = s.pieces ++ added ∧ ∀ p ∈ added, p.kind = .interpolatedStringStart ∨ p.kind = .interpolatedStringMiddle →
      holeEndOnLine input (p.offset + p.length) ≠ .ok LineEnd.insideLiteral) ∧
    s.diagnostics.length ≤ s'.diagnostics.length ∧ HolesOk s' ∧ Boundary input.bytes s'.position := by
  induction hr with
  | refl => exact ⟨⟨[],by simp,nofun⟩,Nat.le_refl _,hs,hb⟩
  | @tail t u _ hstep ih =>
    obtain ⟨⟨added,hp,hseen⟩,hd,ht,hbt⟩ := ih
    obtain ⟨u',hok,hscan⟩ := scanPiece_scans ht hbt hstep.1
    cases Except.ok.inj (hok.symm.trans hstep.2)
    obtain ⟨kind,hadds,hk⟩ := scanPiece_seen ht hbt hstep.1 hstep.2
    refine ⟨⟨added ++ [⟨kind,t.position,u.position - t.position⟩],by rw [hadds.pieces,hp,List.append_assoc],fun p hmem hkind => ?_⟩,
      Nat.le_trans hd hadds.reports,hscan.holes,hscan.boundary⟩
    rcases List.mem_append.mp hmem with hmem | hmem
    · exact hseen p hmem hkind
    · obtain rfl := List.mem_singleton.mp hmem
      dsimp only at hkind ⊢
      rw [Nat.add_sub_cancel' (Nat.le_of_lt hscan.lt)]
      exact hk hkind

/-- The rounds of a text on its own, taken where it stands. -/
theorem rounds_follow (hw : Within h input n) {t : Lexer} (hr : Rounds h s t) (hb : Boundary h.bytes s.position) (hl : Level open₀ d s)
    (hf : Follows n P D (base ++ [d]) s v) (hq : t.diagnostics.length = s.diagnostics.length)
    (hopen : ∀ pre, pre <+: t.pieces → 0 ≤ open₀ + Lex.depth pre)
    (hkinds : ∀ p ∈ t.pieces, p.kind ≠ .newline ∧ p.kind ≠ .lineComment)
    (hseen : ∀ p ∈ t.pieces, p.kind = .interpolatedStringStart ∨ p.kind = .interpolatedStringMiddle →
      holeEndOnLine input (n + (p.offset + p.length)) ≠ .ok LineEnd.insideLiteral) :
    ∃ v' e, Rounds input v v' ∧ Follows n P D (base ++ [e]) t v' ∧ Level open₀ e t := by
  induction hr using Relation.ReflTransGen.head_induction_on generalizing v d with
  | refl => exact ⟨v,d,.refl,hf,hl⟩
  | @head a b hstep hrest ih =>
    obtain ⟨b',hok,hscan⟩ := scanPiece_scans hl.holes hb hstep.1
    cases Except.ok.inj (hok.symm.trans hstep.2)
    obtain ⟨kind,hadds,-⟩ := scanPiece_seen hl.holes hb hstep.1 hstep.2
    obtain ⟨⟨added,hp,-⟩,hd,-⟩ := rounds_adds hrest hscan.holes hscan.boundary
    have hreports := hadds.reports
    have hbegun : b.pieces <+: t.pieces := ⟨added,hp.symm⟩
    have hmem (k : SyntaxKind) (ha : Adds a b k) : (⟨k,a.position,b.position - a.position⟩ : RawToken) ∈ t.pieces :=
      hbegun.subset (by rw [ha.pieces]; exact List.mem_append_right _ (List.mem_singleton_self _))
    have hallowed : Allowed input n a b := fun k ha => by
      obtain ⟨h₁,h₂⟩ := hkinds _ (hmem k ha)
      refine ⟨h₁,h₂,fun hk => ?_⟩
      have := hseen _ (hmem k ha) hk
      dsimp only at this
      rwa [Nat.add_sub_cancel' (Nat.le_of_lt hscan.lt)] at this
    obtain ⟨v₁,e₁,hv₁,hf₁,hl₁⟩ := scanPiece_follows hw hf hl hb hstep.1 hstep.2 (by omega) hallowed (hopen _ hbegun)
    obtain ⟨v',e,hv',hf',hl'⟩ := ih hscan.boundary hl₁ hf₁ (by omega)
    refine ⟨v',e,.head ⟨?_,hv₁⟩ hv',hf',hl'⟩
    rw [hf.position]
    exact hw.lt (Nat.le_of_lt hstep.1)

/-- Lexing is the rounds from the first state to the end of the source. -/
theorem lex_rounds {r : LexResult} (hok : lex input = .ok r) : ∃ s, Rounds input (start input) s ∧ s.position = input.length ∧
    r.rawPieces = s.pieces ++ [⟨.endOfFile,input.length,0⟩] ∧ r.lexDiagnostics = s.diagnostics := by
  obtain ⟨s,hs,hr,ht,hend⟩ : ∃ s, loop .endless (fun s =>
      if s.atEnd input then .ok (.done s)
      else do
        let s ← s.scanPiece input
        .ok (.next s)) (input.length + 1) (start input) = .ok s ∧
      (Rounds input (start input) s ∧ Tiled input s ∧ s.atEnd input = true) := by
    refine loop_ok (I := fun s => Rounds input (start input) s ∧ Tiled input s) (fun s => input.length - s.position) ?_
      ⟨.refl,scanByteOrderMark_tiled input⟩ (by omega)
    rintro s ⟨hr,ht⟩
    by_cases hend : s.atEnd input = true
    · exact Or.inl ⟨s,by rw [if_pos hend],hr,ht,hend⟩
    · have hlt := atEnd_eq_false.mp (Bool.eq_false_iff.mpr hend)
      obtain ⟨s',h₁,hsc⟩ := scanPiece_scans ht.holes ht.boundary hlt
      have := hsc.lt
      exact Or.inr ⟨s',by rw [if_neg hend,h₁,ok_bind],⟨hr.tail ⟨hlt,h₁⟩,hsc.tiled ht⟩,by omega⟩
  have hpos : s.position = input.length := Nat.le_antisymm ht.boundary.1 (atEnd_eq_true.mp hend)
  have hall : ({} : Lexer).scanAll input = .ok (s.emit .endOfFile s.position) := by
    rw [scanAll]
    unfold start at hs
    rw [hs,ok_bind]
  unfold lex at hok
  rw [hall,ok_bind] at hok
  obtain ⟨tokens,-,hok⟩ := bind_ok hok
  cases hok
  refine ⟨s,hr,hpos,?_,rfl⟩
  rw [emit,Nat.sub_self,hpos]

end Lexer
end Ens.Lex
