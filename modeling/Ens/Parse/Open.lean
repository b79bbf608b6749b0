import Ens.Lex.Ended

/-! # Tokens the parser takes for left open

The parser keeps no record of what the lexer reported. It reads off the last bytes of a literal or a comment whether its end was found, and
this is what the lexer reported of it.
-/
set_option linter.all false
namespace Ens.Lex

def LexedToken.stop (token : LexedToken) : ℕ := token.offset + token.length

def LexedToken.piece (token : LexedToken) : RawToken := ⟨token.kind,token.offset,token.length⟩

end Ens.Lex

namespace Ens.Parse
open Loop Ens.Lex

def quoteOf (kind : SyntaxKind) : Option ℕ :=
  if kind = .charLiteral then some '\''.toNat
  else if kind ≠ .stringLiteral ∧ kind ≠ .interpolatedStringEnd then none
  else some '"'.toNat

/-- How many backslashes stand before the last byte of a token, but for its first byte. -/
def backslashesBefore (input : Text) (token : LexedToken) : Except Stop ℕ :=
  loop .endless (fun backslashes =>
    if token.stop - 2 - backslashes > token.offset then do
      let c ← input.byteAt (token.stop - 2 - backslashes)
      if c = '\\'.toNat then .ok (.next (backslashes + 1)) else .ok (.done backslashes)
    else .ok (.done backslashes)) (token.length + 1) 0

def leftOpen (input : Text) (token : LexedToken) : Except Stop Bool :=
  match quoteOf token.kind with
  | none => .ok false
  | some quote =>
    if token.length < 2 then .ok true
    else do
      let c ← input.byteAt (token.stop - 1)
      if c ≠ quote then .ok true
      else do
        let backslashes ← backslashesBefore input token
        .ok (decide (backslashes % 2 = 1))

def endsInOpenComment (input : Text) (pieces : List RawToken) : Except Stop Bool :=
  match pieces.getLast? with
  | none => .ok false
  | some last =>
    if last.kind ≠ .blockComment then .ok false
    else if last.length < 4 then .ok true
    else do
      let c ← input.byteAt (last.stop - 1)
      if c ≠ '/'.toNat then .ok true
      else do
        let d ← input.byteAt (last.stop - 2)
        .ok (decide (d ≠ '*'.toNat))

variable {input : Text} {token : LexedToken} {pieces : List RawToken} {p q : RawToken} {i j n : ℕ}

/-! ### Backslashes -/

theorem trailing_replicate (w : List ℕ) (n : ℕ) : trailing (w ++ List.replicate n '\\'.toNat) = trailing w + n := by
  induction n with
  | zero => rw [List.replicate_zero,List.append_nil,Nat.add_zero]
  | succ n ih => rw [List.replicate_succ',← List.append_assoc,trailing_concat,if_pos rfl,ih,Nat.add_assoc]

theorem byteAt_ok (h : i < input.length) : ∃ c, input.byteAt i = .ok c ∧ input.bytes[i]? = some c := by
  have hb := List.getElem?_eq_getElem (l := input.bytes) h
  exact ⟨_,by rw [Text.byteAt,hb],hb⟩

theorem slice_concat {c : ℕ} (hij : i ≤ j) (hc : input.bytes[j]? = some c) : slice input i (j + 1) = slice input i j ++ [c] := by
  rw [slice,Lexer.slice_append hij (Nat.le_succ j),Lexer.slice_one hc]
  rfl

/-- The loop counts the backslashes that the text between the first and the last byte ends with. -/
theorem backslashesBefore_ok (h2 : 2 ≤ token.length) (hstop : token.stop ≤ input.length) :
    backslashesBefore input token = .ok (trailing (slice input (token.offset + 1) (token.stop - 1))) := by
  have hlen : token.stop = token.offset + token.length := rfl
  suffices hrun : ∃ n, backslashesBefore input token = .ok n ∧
      n = trailing (slice input (token.offset + 1) (token.stop - 1)) by
    obtain ⟨n,hn,rfl⟩ := hrun
    exact hn
  refine loop_ok (I := fun n => n + 2 ≤ token.length ∧ slice input (token.offset + 1) (token.stop - 1) =
      slice input (token.offset + 1) (token.stop - 1 - n) ++ List.replicate n '\\'.toNat) (fun n => token.length - n) ?_
    ⟨by omega,by rw [List.replicate_zero,List.append_nil,Nat.sub_zero]⟩ (by omega)
  rintro n ⟨hn,hslice⟩
  have hcount := congrArg trailing hslice
  rw [trailing_replicate] at hcount
  by_cases hmore : token.stop - 2 - n > token.offset
  · obtain ⟨c,hc,hbyte⟩ := byteAt_ok (show token.stop - 2 - n < input.length by omega)
    have hone := slice_concat (i := token.offset + 1) (by omega) hbyte
    rw [show token.stop - 2 - n + 1 = token.stop - 1 - n by omega] at hone
    rw [if_pos hmore,hc,ok_bind]
    by_cases hb : c = '\\'.toNat
    · refine .inr ⟨n + 1,by rw [if_pos hb],⟨by omega,?_⟩,by omega⟩
      rw [hslice,hone,hb,List.append_assoc,show token.stop - 1 - (n + 1) = token.stop - 2 - n by omega,
        List.replicate_succ]
      rfl
    · refine .inl ⟨n,by rw [if_neg hb],?_⟩
      rw [hcount,hone,trailing_concat,if_neg hb,Nat.zero_add]
  · -- nothing but backslashes is left between the two quotes
    refine .inl ⟨n,by rw [if_neg hmore],?_⟩
    rw [hcount,show token.stop - 1 - n = token.offset + 1 by omega,slice_self]
    exact (Nat.zero_add n).symm

/-! ### What the parser reads -/

theorem ends_of_quote {quote : ℕ} (hquote : quoteOf p.kind = some quote) :
    Ends input p ↔ ¬Unended quote (slice input (p.offset + 1) p.stop) := by
  obtain ⟨kind,offset,length⟩ := p
  unfold quoteOf at hquote
  dsimp only at hquote
  split at hquote
  · rename_i hk
    cases hk
    cases hquote
    exact Iff.rfl
  · split at hquote
    · cases hquote
    · rename_i hk
      cases hquote
      rw [not_and_or,not_not,not_not] at hk
      rcases hk with rfl | rfl <;> exact Iff.rfl

theorem ends_of_no_quote (hquote : quoteOf p.kind = none) (hk : p.kind ≠ .blockComment) : Ends input p := by
  obtain ⟨kind,offset,length⟩ := p
  cases kind <;> trivial

theorem leftOpen_ok {quote : ℕ} (hquote : quoteOf token.kind = some quote) (hstop : token.stop ≤ input.length) :
    ∃ b, leftOpen input token = .ok b ∧ (b = true ↔ ¬Ends input token.piece) := by
  have hends : Ends input token.piece ↔ _ := ends_of_quote hquote
  have hlen : token.stop = token.offset + token.length := rfl
  rw [show token.piece.offset = token.offset from rfl,
    show token.piece.stop = token.stop from rfl] at hends
  rw [hends,not_not,leftOpen,hquote]
  dsimp only
  by_cases h2 : token.length < 2
  · have hnil : slice input (token.offset + 1) token.stop = [] :=
      List.drop_eq_nil_of_le (by rw [List.length_take]; exact Nat.le_trans (Nat.min_le_left _ _) (by omega))
    rw [if_pos h2,hnil]
    exact ⟨true,rfl,iff_of_true rfl fun hlast => by cases hlast⟩
  · obtain ⟨c,hc,hbyte⟩ := byteAt_ok (show token.stop - 1 < input.length by omega)
    have hone := slice_concat (i := token.offset + 1) (by omega) hbyte
    rw [show token.stop - 1 + 1 = token.stop by omega] at hone
    rw [if_neg h2,hc,ok_bind,hone]
    by_cases hcq : c = quote
    · rw [if_neg (not_not_intro hcq),backslashesBefore_ok (by omega) hstop,ok_bind,hcq,Unended,List.dropLast_concat]
      exact ⟨_,rfl,decide_eq_true_iff.trans ⟨fun h _ => h,fun h => h List.getLast?_concat⟩⟩
    · rw [if_pos hcq]
      refine ⟨true,rfl,iff_of_true rfl fun hlast => ?_⟩
      rw [List.getLast?_concat] at hlast
      exact absurd (Option.some.inj hlast) hcq

theorem endsInOpenComment_ok (hstop : ∀ p ∈ pieces, p.stop ≤ input.length) : ∃ b, endsInOpenComment input pieces = .ok b ∧
    (b = true ↔ ∃ p, pieces.getLast? = some p ∧ p.kind = .blockComment ∧ ¬Ends input p) := by
  unfold endsInOpenComment
  cases hlast : pieces.getLast? with
  | none => exact ⟨false,rfl,iff_of_false Bool.false_ne_true (by rintro ⟨p,hp,-⟩; cases hp)⟩
  | some p =>
    have hle := hstop p (List.mem_of_getLast? hlast)
    have hp : p.stop = p.offset + p.length := rfl
    dsimp only
    by_cases hk : p.kind = .blockComment
    · have hone : (∃ q, some p = some q ∧ q.kind = .blockComment ∧ ¬Ends input q) ↔ ¬Ends input p :=
        ⟨fun ⟨q,hq,_,hends⟩ => by cases hq; exact hends,fun h => ⟨p,rfl,hk,h⟩⟩
      rw [hone,Ends,hk]
      dsimp only
      rw [if_neg (not_not_intro rfl)]
      by_cases h4 : p.length < 4
      · rw [if_pos h4]
        exact ⟨true,rfl,iff_of_true rfl fun h => absurd h.1 (Nat.not_le_of_lt h4)⟩
      · obtain ⟨c,hc,hbyte⟩ := byteAt_ok (show p.stop - 1 < input.length by omega)
        obtain ⟨d,hd,hbyte'⟩ := byteAt_ok (show p.stop - 2 < input.length by omega)
        rw [if_neg h4,hc,ok_bind,Lexer.byteAt_some hbyte,Lexer.byteAt_some hbyte']
        by_cases hslash : c = '/'.toNat
        · rw [if_neg (not_not_intro hslash),hd,ok_bind]
          exact ⟨_,rfl,decide_eq_true_iff.trans ⟨fun h hall => h hall.2.2,fun h hstar => h ⟨Nat.not_lt.mp h4,hslash,hstar⟩⟩⟩
        · rw [if_pos hslash]
          exact ⟨true,rfl,iff_of_true rfl fun h => hslash h.2.1⟩
    · rw [if_pos hk]
      exact ⟨false,rfl,iff_of_false Bool.false_ne_true fun ⟨q,hq,hkq,_⟩ => by cases hq; exact hk hkq⟩

/-! ### What the lexer reported -/

def isLiteral (kind : SyntaxKind) : Bool :=
  match kind with
  | .stringLiteral | .charLiteral | .interpolatedStringStart | .interpolatedStringMiddle | .interpolatedStringEnd => true
  | _ => false

def isComment (kind : SyntaxKind) : Bool := decide (kind = .lineComment) || decide (kind = .blockComment)

def lastComment (pieces : List RawToken) : Option RawToken := (pieces.filter fun p => isComment p.kind).getLast?

/-- What stands around a token is trivia. -/
def Framed (token : LexedToken) : Prop := ∀ p ∈ token.leading ++ token.trailing, isTriviaPiece p.kind = true

theorem framed_of (rest after : List RawToken) (kind : SyntaxKind) (offset length : ℕ) :
    Framed ⟨kind,offset,length,rest.takeWhile fun p => isTriviaPiece p.kind,trailingTrivia after⟩ := by
  intro p hp
  rcases List.mem_append.mp hp with hp | hp
  · exact List.mem_takeWhile_imp (p := fun p : RawToken => isTriviaPiece p.kind) hp
  · exact trailingTrivia_trivia after p hp

theorem attachTrivia_framed {raw : List RawToken} {tokens : List LexedToken} (h : attachTrivia raw = .ok tokens) :
    ∀ token ∈ tokens, Framed token := by
  have hsnoc : ∀ {tokens : List LexedToken} {last : LexedToken}, (∀ token ∈ tokens, Framed token) → Framed last →
      ∀ token ∈ tokens ++ [last], Framed token := by
    intro tokens last hall hone token ht
    rcases List.mem_append.mp ht with ht | ht
    · exact hall token ht
    · exact List.mem_singleton.mp ht ▸ hone
  refine Lexer.loop_inv (I := fun s => ∀ token ∈ s.2, Framed token) (Q := fun tokens => ∀ token ∈ tokens, Framed token) ?_ ?_
    (fun token ht => absurd ht List.not_mem_nil) h
  · rintro ⟨rest,tokens⟩ s' hall hbody
    dsimp only at hall hbody
    split at hbody
    · cases hbody
    · split at hbody
      · cases hbody
      · split at hbody <;> cases hbody
        exact hsnoc hall (framed_of _ _ _ _ _)
  · rintro ⟨rest,tokens⟩ tokens' hall hbody
    dsimp only at hall hbody
    split at hbody
    · cases hbody
      exact hall
    · split at hbody
      · cases hbody
      · split at hbody <;> cases hbody
        exact hsnoc hall (framed_of _ _ _ _ _)

theorem isLiteral_iff {kind : SyntaxKind} : isLiteral kind = true ↔ hasEnd kind = true ∧ kind ≠ .blockComment := by
  cases kind <;> decide

theorem isLiteral_of_quote {kind : SyntaxKind} {quote : ℕ} (h : quoteOf kind = some quote) : isLiteral kind = true := by
  cases kind <;> first | rfl | cases h

/-- The last comment is the last piece, where nothing follows it. -/
theorem lastComment_of_last (hlast : pieces.getLast? = some p) (hk : isComment p.kind = true) : lastComment pieces = some p := by
  obtain ⟨front,rfl⟩ := List.getLast?_eq_some_iff.mp hlast
  rw [lastComment,List.filter_append,List.filter_cons_of_pos (by exact hk),List.filter_nil,List.getLast?_concat]

section Source
variable {s : Lexer} {lexed : LexResult}

/-- A comment that is not closed is the last piece of its trivia. -/
theorem getLast_of_open (ht : s.Told input) (hraw : lexed.rawPieces = s.pieces ++ [⟨.endOfFile,input.length,0⟩])
    (hsub : pieces.Sublist lexed.rawPieces) (htrivia : ∀ p ∈ pieces, isTriviaPiece p.kind = true) (hp : p ∈ pieces)
    (hstop : p.stop = input.length) : pieces.getLast? = some p := by
  obtain ⟨front,back,rfl⟩ := List.append_of_mem hp
  obtain ⟨hin,hpair,-⟩ := ht.tiled.tiles.follow
  cases back with
  | nil => exact List.getLast?_concat
  | cons q back =>
    exfalso
    have hq : q ∈ front ++ p :: q :: back := List.mem_append_right _ (List.mem_cons_of_mem _ List.mem_cons_self)
    have hpieces : ∀ r ∈ front ++ p :: q :: back, r ∈ s.pieces := by
      intro r hr
      have hmem := hsub.subset hr
      rw [hraw] at hmem
      refine (List.mem_append.mp hmem).resolve_right fun hend => ?_
      have hkind := htrivia r hr
      rw [List.mem_singleton.mp hend,endOfFile_not_trivia] at hkind
      cases hkind
    have hpair' : lexed.rawPieces.Pairwise fun p q => p.stop ≤ q.offset := by
      rw [hraw]
      refine List.pairwise_append.mpr ⟨hpair,List.pairwise_singleton _ _,fun q hq e he => ?_⟩
      rw [List.mem_singleton.mp he]
      exact Nat.le_trans (hin q hq).2.2 ht.tiled.boundary.1
    have hafter := (List.pairwise_append.mp (hpair'.sublist hsub)).2.1
    have hle := (List.pairwise_cons.mp hafter).1 q List.mem_cons_self
    obtain ⟨hlen,-,hqstop⟩ := hin q (hpieces q hq)
    have hq' : q.stop = q.offset + q.length := rfl
    have hbound : s.position ≤ input.length := ht.tiled.boundary.1
    omega

end Source

/-- For every source, what the parser reads off the end of a literal or of the last comment is what the lexer reported of it. -/
theorem open_agrees (input : Text) : ∃ lexed, lex input = .ok lexed ∧ ∀ token ∈ lexed.significantTokens,
    (∃ b, leftOpen input token = .ok b ∧ (b = true ↔ isLiteral token.kind = true ∧ notClosed token.piece ∈ lexed.lexDiagnostics)) ∧
    ∀ pieces ∈ [token.leading,token.trailing], ∃ b, endsInOpenComment input pieces = .ok b ∧
      (b = true ↔ ∃ p, lastComment pieces = some p ∧ p.kind = .blockComment ∧ notClosed p ∈ lexed.lexDiagnostics) := by
  obtain ⟨lexed,hlex,-,hflat⟩ := lex_tiles input
  obtain ⟨s,ht,hpos,hraw,hd⟩ := Lexer.lex_told hlex
  have hframed : ∀ token ∈ lexed.significantTokens, Framed token := by
    obtain ⟨lexer,-,h⟩ := bind_ok hlex
    obtain ⟨tokens,htokens,h⟩ := bind_ok h
    cases h
    exact attachTrivia_framed htokens
  refine ⟨lexed,hlex,fun token htoken => ?_⟩
  have hsub : token.pieces.Sublist lexed.rawPieces := hflat ▸ List.sublist_flatten_of_mem (List.mem_map_of_mem htoken)
  have hbound : ∀ p ∈ lexed.rawPieces, p.stop ≤ input.length := by
    intro p hp
    rw [hraw] at hp
    rcases List.mem_append.mp hp with hp | hp
    · exact hpos ▸ ht.before p hp
    · rw [List.mem_singleton.mp hp]
      exact Nat.le_refl _
  have hmem : token.piece ∈ lexed.rawPieces := hsub.subset (List.mem_append_right _ List.mem_cons_self)
  have htold : ∀ p ∈ lexed.rawPieces, hasEnd p.kind = true → (notClosed p ∈ lexed.lexDiagnostics ↔ ¬Ends input p) := by
    intro p hp hk
    rw [hraw] at hp
    rcases List.mem_append.mp hp with hp | hp
    · rw [hd]
      exact ht.told p hp hk
    · rw [List.mem_singleton.mp hp] at hk
      cases hk
  refine ⟨?_,fun pieces hpieces => ?_⟩
  · cases hquote : quoteOf token.kind with
    | none =>
      refine ⟨false,by rw [leftOpen,hquote],iff_of_false Bool.false_ne_true fun ⟨hlit,hreported⟩ => ?_⟩
      obtain ⟨hk,hne⟩ := isLiteral_iff.mp hlit
      exact (htold _ hmem hk).mp hreported (ends_of_no_quote hquote hne)
    | some quote =>
      have hlit := isLiteral_of_quote hquote
      obtain ⟨b,hb,hiff⟩ := leftOpen_ok hquote (hbound _ hmem)
      exact ⟨b,hb,by rw [hiff,← htold _ hmem (isLiteral_iff.mp hlit).1,and_iff_right hlit]⟩
  · have htrivia : ∀ p ∈ pieces, isTriviaPiece p.kind = true := fun p hp => hframed token htoken p (by
      rcases List.mem_pair.mp hpieces with rfl | rfl
      · exact List.mem_append_left _ hp
      · exact List.mem_append_right _ hp)
    have hpart : pieces.Sublist lexed.rawPieces := by
      rcases List.mem_pair.mp hpieces with rfl | rfl
      · exact (List.sublist_append_left _ _).trans hsub
      · exact ((List.sublist_cons_self _ _).trans (List.sublist_append_right _ _)).trans hsub
    obtain ⟨b,hb,hiff⟩ := endsInOpenComment_ok fun p hp => hbound p (hpart.subset hp)
    refine ⟨b,hb,hiff.trans ⟨?_,?_⟩⟩
    · rintro ⟨p,hlast,hk,hnot⟩
      have hp := hpart.subset (List.mem_of_getLast? hlast)
      exact ⟨p,lastComment_of_last hlast (by rw [hk]; rfl),hk,(htold p hp (by rw [hk]; rfl)).mpr hnot⟩
    · rintro ⟨p,hlast,hk,hreported⟩
      have hp := (List.mem_filter.mp (List.mem_of_getLast? hlast)).1
      have hnot := (htold p (hpart.subset hp) (by rw [hk]; rfl)).mp hreported
      have hin : p ∈ s.pieces := by
        have hmem := hpart.subset hp
        rw [hraw] at hmem
        refine (List.mem_append.mp hmem).resolve_right fun hend => ?_
        rw [List.mem_singleton.mp hend] at hk
        cases hk
      exact ⟨p,getLast_of_open ht hraw hpart htrivia hp (ht.last p hin hk hnot),hk,hnot⟩

end Ens.Parse

/-! ## The order of the diagnostics

The list a parse returns is the merge of what the lexer and the parser report. It holds every report of both once, and it is ordered by where
the reports start exactly where both lists are, which the lexer's is not when something is reported inside a literal it then finds open.
-/
namespace Ens.Parse
open Loop Ens.Lex

def reportAt (reports : List Diagnostic) (i : ℕ) : Except Stop Diagnostic :=
  match reports[i]? with
  | some d => .ok d
  | none => .error .abort

def mergeDiagnostics (first second : List Diagnostic) : Except Stop (List Diagnostic) :=
  loop .endless (fun (i,j,merged) =>
    if i < first.length ∨ j < second.length then do
      let takeFirst ←
        if j ≥ second.length then .ok true
        else if i < first.length then do
          let d ← reportAt first i
          let e ← reportAt second j
          .ok (decide (d.start ≤ e.start))
        else .ok false
      if takeFirst then do
        let d ← reportAt first i
        .ok (.next (i + 1,j,merged ++ [d]))
      else do
        let e ← reportAt second j
        .ok (.next (i,j + 1,merged ++ [e]))
    else .ok (.done merged)) (first.length + second.length + 1) (0,0,([] : List Diagnostic))

def before (d e : Diagnostic) : Bool := decide (d.start ≤ e.start)

/-- Reports in the order of where they start. -/
def InOrder (reports : List Diagnostic) : Prop := reports.Pairwise fun d e => d.start ≤ e.start

variable {first second reports : List Diagnostic} {d : Diagnostic} {i j : ℕ}

theorem reportAt_ok (h : i < reports.length) : ∃ d, reportAt reports i = .ok d ∧ reports.drop i = d :: reports.drop (i + 1) :=
  ⟨reports[i],by rw [reportAt,List.getElem?_eq_getElem h],List.drop_eq_getElem_cons h⟩

theorem mergeDiagnostics_eq (first second : List Diagnostic) : mergeDiagnostics first second = .ok (first.merge second before) := by
  suffices hrun : ∃ merged, mergeDiagnostics first second = .ok merged ∧ merged = first.merge second before by
    obtain ⟨merged,hm,rfl⟩ := hrun
    exact hm
  refine loop_ok (I := fun s => s.2.2 ++ (first.drop s.1).merge (second.drop s.2.1) before = first.merge second before)
    (fun s => (first.length - s.1) + (second.length - s.2.1)) ?_ rfl (by omega)
  rintro ⟨i,j,merged⟩ hall
  dsimp only at hall ⊢
  by_cases hi : i < first.length
  · obtain ⟨d,hd,hdrop⟩ := reportAt_ok hi
    rw [if_pos (.inl hi)]
    by_cases hj : j < second.length
    · obtain ⟨e,he,hdrop'⟩ := reportAt_ok hj
      rw [if_neg (Nat.not_le_of_lt hj),if_pos hi,hd,he,ok_bind,ok_bind,ok_bind]
      rw [hdrop,hdrop'] at hall
      by_cases hle : d.start ≤ e.start
      · rw [List.cons_merge_cons_pos before _ _ (decide_eq_true hle)] at hall
        refine .inr ⟨_,by rw [if_pos (decide_eq_true hle)]; rfl,?_,by dsimp only; omega⟩
        rw [List.append_assoc,hdrop']
        exact hall
      · rw [List.cons_merge_cons_neg before _ _ (by rw [before,decide_eq_true_iff]; exact hle)] at hall
        refine .inr ⟨_,by rw [if_neg (by rw [decide_eq_true_iff]; exact hle)]; rfl,?_,by dsimp only; omega⟩
        rw [List.append_assoc,hdrop]
        exact hall
    · rw [if_pos (Nat.not_lt.mp hj),ok_bind,if_pos rfl,hd,ok_bind]
      rw [List.drop_eq_nil_of_le (Nat.not_lt.mp hj),List.merge_right,hdrop] at hall
      refine .inr ⟨_,rfl,?_,by dsimp only; omega⟩
      dsimp only
      rw [List.drop_eq_nil_of_le (Nat.not_lt.mp hj),List.merge_right,List.append_assoc]
      exact hall
  · rw [List.drop_eq_nil_of_le (Nat.not_lt.mp hi),List.nil_merge] at hall
    by_cases hj : j < second.length
    · obtain ⟨e,he,hdrop'⟩ := reportAt_ok hj
      rw [if_pos (.inr hj),if_neg (Nat.not_le_of_lt hj),if_neg hi,ok_bind,if_neg Bool.false_ne_true,he,ok_bind]
      refine .inr ⟨_,rfl,?_,by dsimp only; omega⟩
      dsimp only
      rw [List.drop_eq_nil_of_le (Nat.not_lt.mp hi),List.nil_merge,List.append_assoc]
      rw [hdrop'] at hall
      exact hall
    · rw [if_neg (not_or_intro hi hj)]
      rw [List.drop_eq_nil_of_le (Nat.not_lt.mp hj),List.append_nil] at hall
      exact .inl ⟨_,rfl,hall⟩

/-! ### The order of a merge -/

theorem sublist_merge_left (first second : List Diagnostic) : first.Sublist (first.merge second before) := by
  induction first generalizing second with
  | nil => exact List.nil_sublist _
  | cons d first ih =>
    induction second with
    | nil =>
      rw [List.merge_right]
    | cons e second ih' =>
      by_cases h : before d e = true
      · rw [List.cons_merge_cons_pos before _ _ h]
        exact (ih _).cons_cons d
      · rw [List.cons_merge_cons_neg before _ _ h]
        exact ih'.cons e

theorem sublist_merge_right (first second : List Diagnostic) : second.Sublist (first.merge second before) := by
  induction first generalizing second with
  | nil => exact List.nil_merge _ ▸ List.Sublist.refl _
  | cons d first ih =>
    induction second with
    | nil => exact List.nil_sublist _
    | cons e second ih' =>
      by_cases h : before d e = true
      · rw [List.cons_merge_cons_pos before _ _ h]
        exact (ih _).cons d
      · rw [List.cons_merge_cons_neg before _ _ h]
        exact ih'.cons_cons e

theorem merge_inOrder : InOrder (first.merge second before) ↔ InOrder first ∧ InOrder second := by
  constructor
  · intro h
    exact ⟨h.sublist (sublist_merge_left first second),h.sublist (sublist_merge_right first second)⟩
  · rintro ⟨h1,h2⟩
    have hbefore : ∀ {reports : List Diagnostic}, InOrder reports ↔ reports.Pairwise fun d e => before d e = true := fun {reports} => by
      rw [InOrder]
      simp only [before,decide_eq_true_iff]
    rw [hbefore] at *
    refine List.pairwise_merge (fun a b c hab hbc => ?_) (fun a b => ?_) _ _ h1 h2
    · rw [before,decide_eq_true_iff] at *
      exact Nat.le_trans hab hbc
    · rw [before,before,Bool.or_eq_true,decide_eq_true_iff,decide_eq_true_iff]
      exact Nat.le_total _ _

/-! ### The lists of a source -/

/-- A literal that the source leaves open, with something refused inside it. -/
def Nested (input : Text) (pieces : List RawToken) : Prop :=
  ∃ p ∈ pieces, hasEnd p.kind = true ∧ ¬Ends input p ∧ RefusedIn input p

theorem lexDiagnostics_inOrder {input : Text} {lexed : LexResult} (h : lex input = .ok lexed) :
    InOrder lexed.lexDiagnostics ↔ ¬Nested input lexed.rawPieces := by
  obtain ⟨s,ht,-,hraw,hd⟩ := Lexer.lex_told h
  rw [InOrder,hd,ht.ordered,Nested,hraw]
  constructor
  · rintro hclear ⟨p,hp,hk,hnot,hrefused⟩
    rcases List.mem_append.mp hp with hp | hp
    · exact hclear p hp hk hnot hrefused
    · rw [List.mem_singleton.mp hp] at hk
      cases hk
  · exact fun hnested p hp hk hnot hrefused => hnested ⟨p,List.mem_append_left _ hp,hk,hnot,hrefused⟩

def openEscape : Text := ⟨utf8 "\"\\q",Utf8.valid_ascii (by decide)⟩

end Ens.Parse
