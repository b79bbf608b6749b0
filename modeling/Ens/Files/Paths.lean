import Mathlib.Data.List.Induction
import Mathlib.Data.List.Infix
import Mathlib.Data.Nat.Notation

/-! # Paths as text

A path is text whose parts `/` separates, behind the root it starts from, if any. Both are told by the look of the text alone, so that a name may be
taken for a drive when the parts before it are dropped. Otherwise normalizing keeps what a path names, and a path relative to another leads back
to where it was.
-/
set_option linter.all false
namespace Ens.Paths

abbrev Part := List Char

local instance lawfulPart : LawfulBEq Part := inferInstance

/-! ### Roots -/

def isDriveLetter (c : Char) : Bool := ('a' ≤ c && c ≤ 'z') || ('A' ≤ c && c ≤ 'Z')

def indexOf (text : List Char) (start : ℕ) : Option ℕ := ((text.drop start).findIdx? (· = '/')).map (start + ·)

def serverRootLength (text : List Char) : ℕ :=
  match indexOf text 2 with
  | none => text.length
  | some server =>
    match indexOf text (server + 1) with
    | none => text.length
    | some share => share

def rootLength (text : List Char) : ℕ :=
  if ['/','/'].isPrefixOf text then serverRootLength text
  else if ['/'].isPrefixOf text then 1
  else match text with
    | c :: ':' :: '/' :: _ => if isDriveLetter c then 3 else 0
    | _ => 0

def isAbsolute (text : List Char) : Bool := 0 < rootLength text

/-! ### Parts -/

def partsRounds : List Char → Part → List Part → List Part
  | [], part, found => found ++ [part]
  | c :: rest, part, found => if c = '/' then partsRounds rest [] (found ++ [part]) else partsRounds rest (part ++ [c]) found

def partsAfter (text : List Char) (root : ℕ) : List Part :=
  let start := if (text.drop root).head? = some '/' then root + 1 else root
  partsRounds (text.drop start) [] []

def namedParts (text : List Char) (root : ℕ) : List Part := (partsAfter text root).filter fun part => part ≠ [] ∧ part ≠ ['.']

def joined (parts : List Part) : List Char := List.intercalate ['/'] parts

/-! ### The operations -/

def join (text part : List Char) : List Char :=
  if isAbsolute part ∨ text = [] then part
  else if part = [] then text
  else if text.getLast? = some '/' then text ++ part
  else text ++ '/' :: part

def keep (rooted : Bool) (kept : List Part) (part : Part) : List Part :=
  if part = [] ∨ part = ['.'] then kept
  else if part = ['.','.'] then
    if kept ≠ [] ∧ kept.getLast? ≠ some ['.','.'] then kept.dropLast
    else if rooted then kept
    else kept ++ [part]
  else kept ++ [part]

def normalize (text : List Char) : List Char :=
  let root := rootLength text
  let start := text.take root
  let kept := (partsAfter text root).foldl (keep (0 < root)) []
  let body := joined kept
  if body = [] then if start = [] then ['.'] else start
  else if start = [] ∨ start.getLast? = some '/' then start ++ body
  else start ++ '/' :: body

def relativeTo (text base : List Char) : Option (List Char) :=
  let path := normalize text
  let under := normalize base
  let root := rootLength path
  if rootLength under ≠ root ∨ path.take root ≠ under.take root then none
  else
    let parts := namedParts path root
    let baseParts := namedParts under root
    if parts.length < baseParts.length then none
    else if parts.take baseParts.length ≠ baseParts then none
    else
      let rest := parts.drop baseParts.length
      if ['.','.'] ∈ rest then none
      else if rest = [] then some ['.']
      else some (joined rest)

/-! ### Names in a text -/

/-- A part that names something: neither empty nor `.`. -/
def Named (part : Part) : Prop := part ≠ [] ∧ part ≠ ['.'] ∧ '/' ∉ part

def names (text : List Char) : List Part := (text.splitOn '/').filter fun part => part ≠ [] ∧ part ≠ ['.']

theorem not_mem_splitOn (text : List Char) : ∀ part ∈ text.splitOn '/', '/' ∉ part := by
  induction text with
  | nil => simp
  | cons c text ih =>
    rw [List.splitOn_cons_eq_if_modifyHead]
    split
    · intro part hpart
      rcases List.mem_cons.1 hpart with rfl | hpart
      · simp
      · exact ih part hpart
    · rename_i hc
      cases hsplit : text.splitOn '/' with
      | nil => simp
      | cons first rest =>
        rw [hsplit] at ih
        intro part hpart
        rcases List.mem_cons.1 hpart with rfl | hpart
        · have hne : '/' ≠ c := fun h => hc (by simp [← h])
          simp [hne,ih first (by simp)]
        · exact ih part (by simp [hpart])

theorem named_of_mem_names {text : List Char} {part : Part} (h : part ∈ names text) : Named part := by
  obtain ⟨hmem,hne⟩ := List.mem_filter.1 h
  simp only [decide_eq_true_eq] at hne
  exact ⟨hne.1,hne.2,not_mem_splitOn text part hmem⟩

@[simp] theorem names_nil : names [] = [] := by
  simp [names]

theorem names_append (x y : List Char) : names (x ++ '/' :: y) = names x ++ names y := by
  rw [names,List.splitOn_append_cons_self,List.filter_append]
  rfl

theorem names_slash (y : List Char) : names ('/' :: y) = names y := names_append [] y

theorem filter_named {parts : List Part} (h : ∀ part ∈ parts, Named part) :
    parts.filter (fun part => part ≠ [] ∧ part ≠ ['.']) = parts := by
  refine List.filter_eq_self.2 fun part hpart => ?_
  simp [(h part hpart).1,(h part hpart).2.1]

theorem names_joined {parts : List Part} (h : ∀ part ∈ parts, Named part) : names (joined parts) = parts := by
  cases parts with
  | nil => simp [joined]
  | cons part parts =>
    rw [names,joined,List.splitOn_intercalate '/' (fun l hl => (h l hl).2.2) (by simp)]
    exact filter_named h

theorem joined_cons (part : Part) {parts : List Part} (h : parts ≠ []) : joined (part :: parts) = part ++ '/' :: joined parts := by
  rw [joined,List.intercalate_cons_of_ne_nil h]
  simp [joined]

theorem joined_ne_nil {parts : List Part} (h : ∀ part ∈ parts, Named part) (hne : parts ≠ []) : joined parts ≠ [] := by
  intro hj
  have hnames := names_joined h
  rw [hj,names_nil] at hnames
  exact hne hnames.symm

theorem partsRounds_eq (text : List Char) (part : Part) (found : List Part) :
    partsRounds text part found = found ++ (text.splitOn '/').modifyHead (part ++ ·) := by
  induction text generalizing part found with
  | nil => simp [partsRounds]
  | cons c text ih =>
    rw [partsRounds,List.splitOn_cons_eq_if_modifyHead]
    by_cases hc : c = '/'
    · rw [if_pos hc,if_pos (by simp [hc]),ih]
      cases text.splitOn '/' <;> simp
    · rw [if_neg hc,if_neg (by simp [hc]),ih]
      cases text.splitOn '/' <;> simp

theorem namedParts_eq (text : List Char) (root : ℕ) : namedParts text root = names (text.drop root) := by
  unfold namedParts partsAfter
  rw [partsRounds_eq]
  have hsame : ∀ l : List Part, [] ++ l.modifyHead ([] ++ ·) = l := by
    intro l
    cases l <;> simp
  rw [hsame]
  split
  · rename_i h
    cases hd : text.drop root with
    | nil => simp [hd] at h
    | cons c rest =>
      rw [hd] at h
      cases h
      have hdrop : text.drop (root + 1) = rest := by
        rw [← List.drop_drop,hd]
        rfl
      rw [hdrop,names_slash]
      rfl
  · rfl

/-! ### Parts taken up one after another -/

theorem keep_skip {rooted : Bool} {part : Part} (h : part = [] ∨ part = ['.']) (kept : List Part) : keep rooted kept part = kept := by
  rw [keep,if_pos h]

theorem foldl_keep_filter (rooted : Bool) (parts kept : List Part) :
    parts.foldl (keep rooted) kept = (parts.filter fun part => part ≠ [] ∧ part ≠ ['.']).foldl (keep rooted) kept := by
  induction parts generalizing kept with
  | nil => rfl
  | cons part parts ih =>
    rw [List.foldl_cons,ih,List.filter_cons]
    by_cases h : part = [] ∨ part = ['.']
    · rw [keep_skip h,if_neg]
      rcases h with h | h <;> simp [h]
    · have hne : part ≠ [] ∧ part ≠ ['.'] := not_or.1 h
      rw [if_pos (by simpa using hne),List.foldl_cons]

/-- A list of names as parts leave it: those that lead out come first, and none does behind a root. -/
def Settled (rooted : Bool) (kept : List Part) : Prop :=
  (∀ part ∈ kept, Named part) ∧ ∃ ups plain, kept = ups ++ plain ∧ (∀ part ∈ ups, part = ['.','.']) ∧ (∀ part ∈ plain, part ≠ ['.','.']) ∧
    (rooted = true → ups = [])

theorem settled_nil (rooted : Bool) : Settled rooted [] := ⟨by simp,[],[],rfl,by simp,by simp,fun _ => rfl⟩

theorem Settled.keep {rooted : Bool} {kept : List Part} (h : Settled rooted kept) {part : Part} (hp : Named part) :
    Settled rooted (keep rooted kept part) := by
  obtain ⟨hnamed,ups,plain,rfl,hups,hplain,hrooted⟩ := h
  have hsnoc : ∀ l : List Part, (∀ x ∈ l, Named x) → ∀ x ∈ l ++ [part], Named x := by
    intro l hl x hx
    rcases List.mem_append.1 hx with hx | hx
    · exact hl x hx
    · rw [List.mem_singleton.1 hx]
      exact hp
  rw [Paths.keep,if_neg (not_or.2 ⟨hp.1,hp.2.1⟩)]
  split
  · rename_i hup
    split
    · -- The last name is taken back, and it is a plain one.
      rename_i hlast
      cases plain using List.reverseRecOn with
      | nil =>
        obtain ⟨x,hx⟩ := Option.ne_none_iff_exists'.1 (fun hn => hlast.1 (List.getLast?_eq_none_iff.1 hn))
        rw [List.append_nil] at hx hlast
        exact absurd (by rw [hx,hups x (List.mem_of_getLast? hx)]) hlast.2
      | append_singleton plain x _ =>
        rw [← List.append_assoc,List.dropLast_concat]
        exact ⟨fun y hy => hnamed y (by rw [← List.append_assoc]; exact List.mem_append_left _ hy),ups,plain,rfl,hups,
          fun y hy => hplain y (by simp [hy]),hrooted⟩
    · rename_i hlast
      split
      · exact ⟨hnamed,ups,plain,rfl,hups,hplain,hrooted⟩
      · rename_i hr
        have hnil : plain = [] := by
          cases plain using List.reverseRecOn with
          | nil => rfl
          | append_singleton plain x _ =>
            exact absurd ⟨by simp,by simp [← List.append_assoc,hplain x (by simp)]⟩ hlast
        subst hnil
        refine ⟨hsnoc _ hnamed,ups ++ [part],[],by simp,fun y hy => ?_,by simp,fun h => absurd h hr⟩
        rcases List.mem_append.1 hy with hy | hy
        · exact hups y hy
        · rw [List.mem_singleton.1 hy]
          exact hup
  · rename_i hup
    refine ⟨hsnoc _ hnamed,ups,plain ++ [part],by simp,hups,fun y hy => ?_,hrooted⟩
    rcases List.mem_append.1 hy with hy | hy
    · exact hplain y hy
    · rw [List.mem_singleton.1 hy]
      exact hup

theorem settled_foldl {rooted : Bool} (parts : List Part) {kept : List Part} (h : Settled rooted kept) (hp : ∀ part ∈ parts, Named part) :
    Settled rooted (parts.foldl (keep rooted) kept) := by
  induction parts generalizing kept with
  | nil => exact h
  | cons part parts ih => exact ih (h.keep (hp part (by simp))) fun x hx => hp x (by simp [hx])

theorem foldl_keep_plain {rooted : Bool} (parts kept : List Part) (hp : ∀ part ∈ parts, Named part) (hu : ∀ part ∈ parts, part ≠ ['.','.']) :
    parts.foldl (keep rooted) kept = kept ++ parts := by
  induction parts generalizing kept with
  | nil => simp
  | cons part parts ih =>
    have hpart := hp part (by simp)
    rw [List.foldl_cons,keep,if_neg (not_or.2 ⟨hpart.1,hpart.2.1⟩),if_neg (hu part (by simp)),
      ih _ (fun x hx => hp x (by simp [hx])) (fun x hx => hu x (by simp [hx]))]
    simp

theorem Settled.foldl {rooted : Bool} {kept : List Part} (h : Settled rooted kept) : kept.foldl (Paths.keep rooted) [] = kept := by
  obtain ⟨hnamed,ups,plain,rfl,hups,hplain,hrooted⟩ := h
  have hout : ∀ l : List Part, (∀ x ∈ l, x = ['.','.']) → (rooted = true → l = []) → l.foldl (Paths.keep rooted) [] = l := by
    intro l hl hr
    induction l using List.reverseRecOn with
    | nil => rfl
    | append_singleton l x ih =>
      have hx : x = ['.','.'] := hl x (by simp)
      have hfree : rooted = false := by
        cases rooted with
        | false => rfl
        | true => simp at hr
      rw [List.foldl_append,ih (fun y hy => hl y (by simp [hy])) (by simp [hfree]),List.foldl_cons,List.foldl_nil,hx]
      have hlast : ¬ (l ≠ [] ∧ l.getLast? ≠ some ['.','.']) := by
        rintro ⟨hne,hlast⟩
        obtain ⟨y,hy⟩ := Option.ne_none_iff_exists'.1 (fun hn => hne (List.getLast?_eq_none_iff.1 hn))
        exact hlast (by rw [hy,hl y (by simp [List.mem_of_getLast? hy])])
      rw [Paths.keep,if_neg (by simp),if_pos rfl,if_neg hlast,hfree]
      rfl
  rw [List.foldl_append,hout ups hups hrooted,foldl_keep_plain plain ups (fun x hx => hnamed x (by simp [hx])) hplain]

/-! ### Texts with their roots -/

/-- What may follow a root that a separator ends. -/
def Unslashed (rest : List Char) : Prop := ∀ more, rest ≠ '/' :: more

inductive Rooted : List Char → List Char → Prop
  | relative {rest : List Char} : Unslashed rest → (∀ c more, rest = c :: ':' :: '/' :: more → isDriveLetter c = false) → Rooted [] rest
  | top {rest : List Char} : Unslashed rest → Rooted ['/'] rest
  | drive {c : Char} {rest : List Char} : isDriveLetter c = true → Rooted [c,':','/'] rest
  | server {server : Part} : '/' ∉ server → Rooted ('/' :: '/' :: server) []
  | share {server share : Part} {rest : List Char} : '/' ∉ server → '/' ∉ share → (rest = [] ∨ ∃ more, rest = '/' :: more) →
    Rooted ('/' :: '/' :: (server ++ '/' :: share)) rest

theorem findIdx_none {part : Part} (h : '/' ∉ part) : part.findIdx? (· = '/') = none := by
  rw [List.findIdx?_eq_none_iff]
  intro c hc
  have hne : c ≠ '/' := fun he => h (he ▸ hc)
  simp [hne]

theorem findIdx_slash {part : Part} (h : '/' ∉ part) (rest : List Char) : (part ++ '/' :: rest).findIdx? (· = '/') = some part.length := by
  rw [List.findIdx?_append,findIdx_none h]
  simp [List.findIdx?_cons]

theorem indexOf_none {front part : List Char} (h : '/' ∉ part) : indexOf (front ++ part) front.length = none := by
  rw [indexOf,List.drop_left,findIdx_none h]
  rfl

theorem indexOf_slash {front part : List Char} (h : '/' ∉ part) (rest : List Char) :
    indexOf (front ++ (part ++ '/' :: rest)) front.length = some (front.length + part.length) := by
  rw [indexOf,List.drop_left,findIdx_slash h]
  rfl

theorem serverRootLength_server {server : Part} (h : '/' ∉ server) :
    serverRootLength ('/' :: '/' :: server) = ('/' :: '/' :: server).length := by
  have hindex := @indexOf_none ['/','/'] _ h
  simp only [List.cons_append,List.nil_append,List.length_cons,List.length_nil] at hindex
  rw [serverRootLength,hindex]

theorem serverRootLength_share {server share : Part} (h : '/' ∉ server) (h' : '/' ∉ share) {rest : List Char}
    (hr : rest = [] ∨ ∃ more, rest = '/' :: more) :
    serverRootLength ('/' :: '/' :: (server ++ '/' :: share) ++ rest) = ('/' :: '/' :: (server ++ '/' :: share)).length := by
  have hfirst := @indexOf_slash ['/','/'] _ h (share ++ rest)
  have hfront : ('/' :: '/' :: server ++ ['/']).length = 2 + server.length + 1 := by
    simp
    omega
  simp only [List.cons_append,List.nil_append,List.append_assoc,List.length_cons,List.length_nil,Nat.zero_add] at hfirst ⊢
  rw [serverRootLength,hfirst]
  rcases hr with rfl | ⟨more,rfl⟩
  · have hsecond := @indexOf_none ('/' :: '/' :: server ++ ['/']) _ h'
    rw [hfront] at hsecond
    simp only [List.cons_append,List.append_assoc,List.nil_append,List.append_nil] at hsecond ⊢
    rw [hsecond]
    simp
  · have hsecond := @indexOf_slash ('/' :: '/' :: server ++ ['/']) _ h' more
    rw [hfront] at hsecond
    simp only [List.cons_append,List.append_assoc,List.nil_append] at hsecond
    rw [show 2 + server.length + 1 = 1 + 1 + server.length + 1 by omega] at hsecond
    simp only [hsecond]
    simp
    omega

theorem Unslashed.not_prefix {rest : List Char} (h : Unslashed rest) (more : List Char) : ('/' :: more).isPrefixOf rest = false := by
  cases rest with
  | nil => rfl
  | cons c rest =>
    have hc : c ≠ '/' := fun he => h rest (by rw [he])
    simp [List.isPrefixOf,Ne.symm hc]

theorem Rooted.length {root rest : List Char} (h : Rooted root rest) : rootLength (root ++ rest) = root.length := by
  unfold rootLength
  cases h with
  | relative hs hd =>
    rw [List.nil_append,hs.not_prefix,hs.not_prefix]
    simp only [Bool.false_eq_true,if_false]
    split
    · rename_i c more
      rw [hd c more rfl]
      rfl
    · rfl
  | top hs =>
    have htwo : ['/','/'].isPrefixOf ('/' :: rest) = false := by
      rw [List.isPrefixOf,hs.not_prefix]
      rfl
    rw [List.singleton_append,htwo]
    simp
  | drive hc =>
    rename_i c
    have hne : c ≠ '/' := by
      rintro rfl
      exact absurd hc (by decide)
    simp [hc,Ne.symm hne]
  | server hs =>
    rw [List.append_nil,if_pos (by simp)]
    exact serverRootLength_server hs
  | share hs hsh hr =>
    rw [if_pos (by simp)]
    exact serverRootLength_share hs hsh hr

theorem exists_part (text : List Char) : ∃ part rest, text = part ++ rest ∧ '/' ∉ part ∧ (rest = [] ∨ ∃ more, rest = '/' :: more) := by
  induction text with
  | nil => exact ⟨[],[],rfl,by simp,.inl rfl⟩
  | cons c text ih =>
    by_cases hc : c = '/'
    · exact ⟨[],c :: text,rfl,by simp,.inr ⟨text,by rw [hc]⟩⟩
    · obtain ⟨part,rest,rfl,hpart,hrest⟩ := ih
      exact ⟨c :: part,rest,rfl,by simp [hpart,Ne.symm hc],hrest⟩

theorem exists_rooted (text : List Char) : ∃ root rest, text = root ++ rest ∧ Rooted root rest := by
  by_cases hdouble : ∃ more, text = '/' :: '/' :: more
  · obtain ⟨more,rfl⟩ := hdouble
    obtain ⟨server,rest,rfl,hserver,hrest⟩ := exists_part more
    rcases hrest with rfl | ⟨more,rfl⟩
    · exact ⟨_,[],by simp,.server hserver⟩
    · obtain ⟨share,rest,rfl,hshare,hrest⟩ := exists_part more
      exact ⟨'/' :: '/' :: (server ++ '/' :: share),rest,by simp,.share hserver hshare hrest⟩
  · by_cases hslash : ∃ more, text = '/' :: more
    · obtain ⟨more,rfl⟩ := hslash
      exact ⟨['/'],more,rfl,.top fun rest hrest => hdouble ⟨rest,by rw [hrest]⟩⟩
    · by_cases hdrive : ∃ c more, text = c :: ':' :: '/' :: more ∧ isDriveLetter c = true
      · obtain ⟨c,more,rfl,hc⟩ := hdrive
        exact ⟨[c,':','/'],more,rfl,.drive hc⟩
      · refine ⟨[],text,rfl,.relative (fun rest hrest => hslash ⟨rest,hrest⟩) fun c more htext => ?_⟩
        exact Bool.eq_false_iff.2 fun hc => hdrive ⟨c,more,htext,hc⟩

/-! ### Normalized texts -/

def assemble (root : List Char) (kept : List Part) : List Char :=
  if joined kept = [] then if root = [] then ['.'] else root
  else if root = [] ∨ root.getLast? = some '/' then root ++ joined kept
  else root ++ '/' :: joined kept

def keptNames (root rest : List Char) : List Part := (names rest).foldl (keep (decide (0 < root.length))) []

variable {root rest : List Char} {kept : List Part}

theorem foldl_partsAfter (h : Rooted root rest) :
    (partsAfter (root ++ rest) (rootLength (root ++ rest))).foldl (keep (isAbsolute (root ++ rest))) [] = keptNames root rest := by
  have hnames := namedParts_eq (root ++ rest) root.length
  rw [List.drop_left] at hnames
  rw [isAbsolute,h.length,foldl_keep_filter,keptNames,← hnames]
  rfl

theorem normalize_eq (h : Rooted root rest) : normalize (root ++ rest) = assemble root (keptNames root rest) := by
  rw [← foldl_partsAfter h]
  unfold normalize isAbsolute
  simp only [h.length,List.take_left]
  rfl

theorem settled_keptNames (root rest : List Char) : Settled (decide (0 < root.length)) (keptNames root rest) :=
  settled_foldl _ (settled_nil _) fun _ h => named_of_mem_names h

/-- Names of which the first looks like a drive that the others stand on. -/
def DriveLed (kept : List Part) : Prop := ∃ c name more, isDriveLetter c = true ∧ kept = [c,':'] :: name :: more

/-- The root and the names that the text of a root and names is read with. Both change where the first name is taken for a drive, and where the
root is one of a server whose share is empty, so that the first name takes its place. -/
inductive Reread : List Char → List Part → List Char → List Part → Prop
  | drive {c : Char} {name : Part} {more : List Part} : isDriveLetter c = true →
    Reread [] ([c,':'] :: name :: more) [c,':','/'] (name :: more)
  | share {server name : Part} {more : List Part} : '/' ∉ server →
    Reread ('/' :: '/' :: (server ++ ['/'])) (name :: more) ('/' :: '/' :: (server ++ '/' :: name)) more
  | same {root : List Char} {kept : List Part} : ¬ (root = [] ∧ DriveLed kept) →
    (∀ server, '/' ∉ server → root = '/' :: '/' :: (server ++ ['/']) → kept = []) → Reread root kept root kept

theorem exists_reread (root : List Char) (kept : List Part) : ∃ root' kept', Reread root kept root' kept' := by
  by_cases hdrive : root = [] ∧ DriveLed kept
  · obtain ⟨rfl,c,name,more,hc,rfl⟩ := hdrive
    exact ⟨_,_,.drive hc⟩
  · by_cases hshare : ∃ server, '/' ∉ server ∧ root = '/' :: '/' :: (server ++ ['/']) ∧ kept ≠ []
    · obtain ⟨server,hs,rfl,hne⟩ := hshare
      obtain ⟨name,more,rfl⟩ := List.exists_cons_of_ne_nil hne
      exact ⟨_,_,.share hs⟩
    · refine ⟨root,kept,.same hdrive fun server hs hroot => ?_⟩
      by_contra hne
      exact hshare ⟨server,hs,hroot,hne⟩

theorem getLast_slash (server : Part) : ('/' :: '/' :: (server ++ ['/'])).getLast? = some '/' := by
  rw [← List.cons_append,← List.cons_append]
  exact List.getLast?_concat

theorem getLast_share (server : Part) {share : Part} (hne : share ≠ []) (hs : '/' ∉ share) :
    ('/' :: '/' :: (server ++ '/' :: share)).getLast? ≠ some '/' := by
  intro hl
  obtain ⟨c,more,rfl⟩ := List.exists_cons_of_ne_nil hne
  have hlast : ('/' :: '/' :: (server ++ '/' :: c :: more)).getLast? = (c :: more).getLast? := by
    simp [List.getLast?_append,List.getLast?_cons]
  rw [hlast] at hl
  exact hs (List.mem_of_getLast? hl)

theorem Reread.assemble_append {root' : List Char} {kept' : List Part} (h : Reread root kept root' kept') (hn : ∀ part ∈ kept, Named part)
    {rest : List Part} (hr : ∀ part ∈ rest, Named part) : assemble root (kept ++ rest) = assemble root' (kept' ++ rest) := by
  have hall : ∀ {l : List Part}, (∀ part ∈ l, Named part) → ∀ part ∈ l ++ rest, Named part := by
    intro l hl part hpart
    rcases List.mem_append.1 hpart with hpart | hpart
    · exact hl part hpart
    · exact hr part hpart
  cases h with
  | drive hc =>
    rename_i c name more
    have htail : ∀ part ∈ name :: more ++ rest, Named part := hall fun part hpart => hn part (by simp [hpart])
    have hne := joined_ne_nil htail (by simp)
    have hjoin : joined ([c,':'] :: (name :: more ++ rest)) = c :: ':' :: '/' :: joined (name :: more ++ rest) :=
      joined_cons [c,':'] (by simp)
    rw [List.cons_append,assemble,assemble,hjoin,if_neg (by simp),if_pos (by simp),if_neg hne,if_pos (by simp)]
    rfl
  | share hs =>
    rename_i server name
    have hname : Named name := hn name (by simp)
    have hlast := getLast_share server hname.1 hname.2.2
    by_cases hkept : kept' ++ rest = []
    · have hj : joined [name] = name := by simp [joined]
      rw [List.cons_append,hkept,assemble,assemble,hj,if_neg hname.1,if_pos (.inr (getLast_slash server)),if_pos (by simp [joined]),if_neg (by simp)]
      simp
    · have htail : ∀ part ∈ kept' ++ rest, Named part := hall fun part hpart => hn part (by simp [hpart])
      have hj := joined_cons name hkept
      have hne : joined (name :: (kept' ++ rest)) ≠ [] := by
        rw [hj]
        simp
      rw [List.cons_append,assemble,assemble,if_neg hne,if_pos (.inr (getLast_slash server)),if_neg (joined_ne_nil htail hkept),
        if_neg (not_or.2 ⟨by simp,hlast⟩),hj]
      simp
  | same => rfl

theorem Reread.assemble_eq {root' : List Char} {kept' : List Part} (h : Reread root kept root' kept') (hn : ∀ part ∈ kept, Named part) :
    assemble root kept = assemble root' kept' := by
  have hnil : ∀ part ∈ ([] : List Part), Named part := by simp
  have happend := h.assemble_append hn hnil
  rwa [List.append_nil,List.append_nil] at happend

theorem joined_unslashed (hn : ∀ part ∈ kept, Named part) : Unslashed (joined kept) := by
  intro more hmore
  cases kept with
  | nil => cases hmore
  | cons part parts =>
    have hpart := hn part (by simp)
    obtain ⟨c,part,rfl⟩ := List.exists_cons_of_ne_nil hpart.1
    have hc : '/' ≠ c := fun he => hpart.2.2 (by simp [← he])
    cases parts with
    | nil => exact hc (by simpa [joined] using (congrArg List.head? hmore).symm)
    | cons next parts =>
      rw [joined_cons _ (by simp)] at hmore
      exact hc (by simpa using (congrArg List.head? hmore).symm)

/-- A text of names that looks like one with a drive begins with a drive that other names stand on. -/
theorem driveLed_of_joined (hn : ∀ part ∈ kept, Named part) {c : Char} {more : List Char} (hc : isDriveLetter c = true)
    (h : joined kept = c :: ':' :: '/' :: more) : DriveLed kept := by
  cases kept with
  | nil => cases h
  | cons part parts =>
    have hpart := (hn part (by simp)).2.2
    cases parts with
    | nil =>
      have hj : joined [part] = part := by simp [joined]
      rw [hj] at h
      exact absurd (by simp [h]) hpart
    | cons next parts =>
      rw [joined_cons _ (by simp)] at h
      refine ⟨c,next,parts,hc,?_⟩
      rcases part with _ | ⟨c1,_ | ⟨c2,_ | ⟨c3,part⟩⟩⟩
      · exact absurd rfl (hn [] (by simp)).1
      · simp at h
      · simp only [List.cons_append,List.nil_append,List.cons.injEq] at h
        rw [h.1,h.2.1]
      · simp only [List.cons_append,List.cons.injEq] at h
        exact absurd (by simp [h.2.2.1]) hpart

theorem Settled.rooted_tail {rooted : Bool} {part : Part} {parts : List Part} (h : Settled rooted (part :: parts)) (hp : part ≠ ['.','.']) :
    Settled true parts := by
  obtain ⟨hnamed,ups,plain,heq,hups,hplain,-⟩ := h
  cases ups with
  | nil =>
    rw [List.nil_append] at heq
    exact ⟨fun x hx => hnamed x (by simp [hx]),[],parts,rfl,by simp,fun x hx => hplain x (by simp [← heq,hx]),fun _ => rfl⟩
  | cons up ups =>
    rw [List.cons_append] at heq
    exact absurd (by rw [(List.cons.inj heq).1]; exact hups up (by simp)) hp

theorem Settled.no_up {part : Part} {parts : List Part} (h : Settled true (part :: parts)) : part ≠ ['.','.'] := by
  obtain ⟨-,ups,plain,heq,-,hplain,hr⟩ := h
  obtain rfl := hr rfl
  rw [List.nil_append] at heq
  exact hplain part (by simp [← heq])

theorem Reread.rooted {root' : List Char} {kept' : List Part} (h : Rooted root rest) (hr : Reread root (keptNames root rest) root' kept') :
    ∃ rest', assemble root (keptNames root rest) = root' ++ rest' ∧ Rooted root' rest' ∧ names rest' = kept' ∧
      Settled (decide (0 < root'.length)) kept' := by
  have hset := settled_keptNames root rest
  have hnamed := hset.1
  generalize hk : keptNames root rest = kept at hr hset hnamed ⊢
  cases hr with
  | drive hc =>
    rename_i c name more
    have htail : ∀ part ∈ name :: more, Named part := fun part hpart => hnamed part (by simp [hpart])
    refine ⟨joined (name :: more),?_,.drive hc,names_joined htail,hset.rooted_tail (by simp)⟩
    have hj : joined ([c,':'] :: name :: more) = c :: ':' :: '/' :: joined (name :: more) := joined_cons [c,':'] (by simp)
    rw [assemble,hj,if_neg (by simp),if_pos (by simp)]
    rfl
  | share hs =>
    rename_i server name
    have hname := hnamed name (by simp)
    have htail : ∀ part ∈ kept', Named part := fun part hpart => hnamed part (by simp [hpart])
    have hup : Settled true (name :: kept') := by simpa using hset
    have hset' : Settled (decide (0 < ('/' :: '/' :: (server ++ '/' :: name)).length)) kept' := by
      simpa using hup.rooted_tail hup.no_up
    by_cases hempty : kept' = []
    · subst hempty
      refine ⟨[],?_,.share hs hname.2.2 (.inl rfl),names_nil,hset'⟩
      have hj : joined [name] = name := by simp [joined]
      rw [assemble,hj,if_neg hname.1,if_pos (.inr (getLast_slash server))]
      simp
    · refine ⟨'/' :: joined kept',?_,.share hs hname.2.2 (.inr ⟨_,rfl⟩),by rw [names_slash,names_joined htail],hset'⟩
      rw [assemble,joined_cons name hempty,if_neg (by simp),if_pos (.inr (getLast_slash server))]
      simp
  | same hdrive hshare =>
    have hempty : ∀ {root : List Char}, root ≠ [] → assemble root [] = root ++ [] := by
      intro root hne
      rw [assemble,if_pos (by simp [joined]),if_neg hne,List.append_nil]
    cases h with
    | relative =>
      by_cases hnil : kept' = []
      · subst hnil
        refine ⟨['.'],by simp [assemble,joined],.relative (by simp [Unslashed]) (by simp),by decide,settled_nil _⟩
      · have hj := joined_ne_nil hnamed hnil
        refine ⟨joined kept',by simp [assemble,hj],.relative (joined_unslashed hnamed) fun c more hm => ?_,names_joined hnamed,hset⟩
        exact Bool.eq_false_iff.2 fun hc => hdrive ⟨rfl,driveLed_of_joined hnamed hc hm⟩
    | top =>
      refine ⟨joined kept',?_,.top (joined_unslashed hnamed),names_joined hnamed,hset⟩
      by_cases hj : joined kept' = [] <;> simp [assemble,hj]
    | drive hc =>
      refine ⟨joined kept',?_,.drive hc,names_joined hnamed,hset⟩
      by_cases hj : joined kept' = [] <;> simp [assemble,hj]
    | server hs =>
      have hnil : kept' = [] := by
        rw [← hk]
        simp [keptNames]
      subst hnil
      exact ⟨[],hempty (by simp),.server hs,names_nil,hset⟩
    | share hs hsh hrest =>
      rename_i server share
      by_cases hnil : kept' = []
      · subst hnil
        exact ⟨[],hempty (by simp),.share hs hsh (.inl rfl),names_nil,hset⟩
      · have hne : share ≠ [] := by
          rintro rfl
          exact hnil (hshare server hs rfl)
        refine ⟨'/' :: joined kept',?_,.share hs hsh (.inr ⟨_,rfl⟩),by rw [names_slash,names_joined hnamed],hset⟩
        rw [assemble,if_neg (joined_ne_nil hnamed hnil),if_neg (not_or.2 ⟨by simp,getLast_share server hne hsh⟩)]

/-! ### Normalizing -/

theorem keptNames_of_settled {rest' : List Char} (hn : names rest' = kept) (hs : Settled (decide (0 < root.length)) kept) :
    keptNames root rest' = kept := by
  rw [keptNames,hn,hs.foldl]

theorem normalize_normalize (text : List Char) : normalize (normalize text) = normalize text := by
  obtain ⟨root,rest,rfl,h⟩ := exists_rooted text
  obtain ⟨root',kept',hr⟩ := exists_reread root (keptNames root rest)
  obtain ⟨rest',heq,h',hn,hs⟩ := hr.rooted h
  rw [normalize_eq h,heq,normalize_eq h',keptNames_of_settled hn hs,← heq,hr.assemble_eq (settled_keptNames root rest).1]

theorem isAbsolute_iff (h : Rooted root rest) : isAbsolute (root ++ rest) = true ↔ root ≠ [] := by
  rw [isAbsolute,h.length,decide_eq_true_eq,List.length_pos_iff]

/-- A text is absolute after it is normalized as before, unless its names begin with one that looks like a drive. -/
theorem isAbsolute_normalize (h : Rooted root rest) :
    isAbsolute (normalize (root ++ rest)) = isAbsolute (root ++ rest) ↔ ¬ (root = [] ∧ DriveLed (keptNames root rest)) := by
  obtain ⟨root',kept',hr⟩ := exists_reread root (keptNames root rest)
  obtain ⟨rest',heq,h',-⟩ := hr.rooted h
  rw [normalize_eq h,heq,Bool.eq_iff_iff,isAbsolute_iff h',isAbsolute_iff h]
  generalize keptNames root rest = kept at hr
  cases hr with
  | drive hc => exact iff_of_false (by simp) fun hno => hno ⟨rfl,_,_,_,hc,rfl⟩
  | share hs => exact iff_of_true (by simp) (by simp)
  | same hno => exact iff_of_true Iff.rfl hno

/-! ### A path relative to another -/

def spelled (rest : List Part) : List Char := if rest = [] then ['.'] else joined rest

/-- A path lies under a base that is read with the same root and the first of its names, and no name left leads out. -/
theorem relativeTo_eq {root₁ rest₁ root₂ rest₂ : List Char} {kept₁ kept₂ : List Part} (h : Rooted root₁ rest₁) (h' : Rooted root₂ rest₂)
    {text base : List Char} (ht : normalize text = root₁ ++ rest₁) (hb : normalize base = root₂ ++ rest₂)
    (hn : names rest₁ = kept₁) (hn' : names rest₂ = kept₂) (r : List Char) :
    relativeTo text base = some r ↔ root₂ = root₁ ∧ ∃ rest, kept₁ = kept₂ ++ rest ∧ ['.','.'] ∉ rest ∧ r = spelled rest := by
  unfold relativeTo
  simp only [ht,hb,h.length,h'.length,namedParts_eq,List.take_left,List.drop_left,hn]
  by_cases hroot : root₂ = root₁
  · subst hroot
    simp only [List.take_left,List.drop_left,hn',ne_eq,not_true_eq_false,or_self,if_false,true_and]
    split
    · rename_i hlt
      refine iff_of_false (by simp) ?_
      rintro ⟨rest,rfl,-⟩
      rw [List.length_append] at hlt
      omega
    · split
      · rename_i hne
        refine iff_of_false (by simp) ?_
        rintro ⟨rest,rfl,-⟩
        exact hne (by simp)
      · rename_i hlen htake
        have hsplit : kept₁ = kept₂ ++ kept₁.drop kept₂.length := by
          have := List.take_append_drop kept₂.length kept₁
          rw [not_not.1 htake] at this
          exact this.symm
        generalize kept₁.drop kept₂.length = rest at hsplit ⊢
        have huniq : ∀ rest', kept₁ = kept₂ ++ rest' → rest' = rest := fun rest' hrest' => List.append_cancel_left (hrest'.symm.trans hsplit)
        split
        · rename_i hup
          refine iff_of_false (by simp) ?_
          rintro ⟨rest',hrest',hno,-⟩
          exact hno (huniq rest' hrest' ▸ hup)
        · rename_i hup
          constructor
          · intro hr
            refine ⟨rest,hsplit,hup,?_⟩
            unfold spelled
            split at hr
            · rename_i hnil
              rw [if_pos hnil]
              exact (Option.some.inj hr).symm
            · rename_i hnil
              rw [if_neg hnil]
              exact (Option.some.inj hr).symm
          · rintro ⟨rest',hrest',-,rfl⟩
            rw [huniq rest' hrest',spelled]
            split <;> rfl
  · have hcond : root₂.length ≠ root₁.length ∨ ¬ root₁ = (root₂ ++ rest₂).take root₁.length := by
      by_contra hno
      rw [not_or,not_not,not_not] at hno
      have htake : (root₂ ++ rest₂).take root₁.length = root₂ := by
        rw [← hno.1,List.take_left]
      exact hroot (by rw [hno.2,htake])
    rw [if_pos hcond]
    exact iff_of_false (by simp) fun hr => hroot hr.1

/-! ### Joining -/

/-- A text that a part put behind makes another root of: a drive letter and a colon alone, or a server without a share. -/
def Unfinished (base : List Char) : Prop :=
  (∃ c, isDriveLetter c = true ∧ base = [c,':']) ∨ ∃ server, '/' ∉ server ∧ (base = '/' :: '/' :: server ∨ base = '/' :: '/' :: (server ++ ['/']))

def slashed (rest part : List Char) : List Char := if rest.getLast? = some '/' then rest ++ part else rest ++ '/' :: part

theorem names_slashed (rest part : List Char) : names (slashed rest part) = names rest ++ names part := by
  unfold slashed
  split
  · rename_i hlast
    obtain ⟨front,rfl⟩ := List.getLast?_eq_some_iff.1 hlast
    rw [List.append_assoc,List.singleton_append,names_append,names_append,names_nil,List.append_nil]
  · exact names_append rest part

theorem head_slashed {rest part : List Char} (hne : rest ≠ []) : (slashed rest part).head? = rest.head? := by
  obtain ⟨c,rest,rfl⟩ := List.exists_cons_of_ne_nil hne
  unfold slashed
  split <;> rfl

/-- A relative part joined to a base keeps the root of the base, and its names come behind those of the base. -/
theorem join_rooted (h : Rooted root rest) (hb : ¬ Unfinished (root ++ rest)) {part : List Char} (hp : isAbsolute part = false)
    (hne : part ≠ []) : ∃ rest', join (root ++ rest) part = root ++ rest' ∧ Rooted root rest' ∧ names rest' = names rest ++ names part := by
  have hpart : Rooted [] part := by
    obtain ⟨root₂,rest₂,rfl,h₂⟩ := exists_rooted part
    have hnil : root₂ = [] := by
      by_contra hroot
      rw [(isAbsolute_iff h₂).2 hroot] at hp
      cases hp
    subst hnil
    exact h₂
  have hslash : Unslashed part := by
    cases hpart with
    | relative hs _ => exact hs
  by_cases hempty : root ++ rest = []
  · obtain ⟨rfl,rfl⟩ := List.append_eq_nil_iff.1 hempty
    exact ⟨part,by simp [join],hpart,by simp⟩
  have hjoin : join (root ++ rest) part = slashed (root ++ rest) part := by
    simp [join,slashed,hp,hempty,hne]
  rw [hjoin]
  cases h with
  | relative hs hd =>
    rw [List.nil_append] at hempty
    refine ⟨slashed rest part,by simp,.relative (fun more hmore => ?_) fun c more hmore => ?_,names_slashed rest part⟩
    · have hhead : (slashed rest part).head? = rest.head? := head_slashed hempty
      rw [hmore] at hhead
      obtain ⟨c,rest,rfl⟩ := List.exists_cons_of_ne_nil hempty
      exact hs rest (by rw [show c = '/' by simpa using hhead.symm])
    · -- The text begins as that of the base, which holds more than a drive letter and a colon.
      rcases rest with _ | ⟨c1,_ | ⟨c2,_ | ⟨c3,rest⟩⟩⟩
      · exact absurd rfl hempty
      · unfold slashed at hmore
        split at hmore
        · rename_i hlast
          exact absurd (by simpa using hlast) (fun he : c1 = '/' => hs [] (by rw [he]))
        · simp at hmore
      · have hcolon : c1 = c ∧ c2 = ':' := by
          unfold slashed at hmore
          split at hmore <;> simp at hmore <;> exact ⟨hmore.1,hmore.2.1⟩
        obtain ⟨rfl,rfl⟩ := hcolon
        exact Bool.eq_false_iff.2 fun hc => hb (.inl ⟨c1,hc,rfl⟩)
      · have hsame : c1 = c ∧ c2 = ':' ∧ c3 = '/' := by
          unfold slashed at hmore
          split at hmore <;> simp at hmore <;> exact ⟨hmore.1,hmore.2.1,hmore.2.2.1⟩
        obtain ⟨rfl,rfl,rfl⟩ := hsame
        exact hd c1 rest rfl
  | top hs =>
    by_cases hrest : rest = []
    · subst hrest
      exact ⟨part,rfl,.top hslash,by simp⟩
    · refine ⟨slashed rest part,?_,.top fun more hmore => ?_,names_slashed rest part⟩
      · obtain ⟨c,rest,rfl⟩ := List.exists_cons_of_ne_nil hrest
        unfold slashed
        simp only [List.singleton_append,List.getLast?_cons_cons]
        split <;> rfl
      · have hhead : (slashed rest part).head? = rest.head? := head_slashed hrest
        rw [hmore] at hhead
        obtain ⟨c,rest,rfl⟩ := List.exists_cons_of_ne_nil hrest
        exact hs rest (by rw [show c = '/' by simpa using hhead.symm])
  | drive hc =>
    rename_i c
    by_cases hrest : rest = []
    · subst hrest
      exact ⟨part,rfl,.drive hc,by simp⟩
    · refine ⟨slashed rest part,?_,.drive hc,names_slashed rest part⟩
      obtain ⟨d,rest,rfl⟩ := List.exists_cons_of_ne_nil hrest
      unfold slashed
      simp only [List.cons_append,List.nil_append,List.getLast?_cons_cons]
      split <;> rfl
  | server hs => exact absurd (.inr ⟨_,hs,.inl (by simp)⟩) hb
  | share hs hsh hr =>
    rename_i server share
    by_cases hrest : rest = []
    · subst hrest
      have hshare : share ≠ [] := by
        rintro rfl
        exact hb (.inr ⟨server,hs,.inr (by simp)⟩)
      refine ⟨'/' :: part,?_,.share hs hsh (.inr ⟨part,rfl⟩),by rw [names_slash,names_nil,List.nil_append]⟩
      rw [slashed,List.append_nil,if_neg (getLast_share server hshare hsh)]
    · obtain ⟨more,rfl⟩ := hr.resolve_left hrest
      refine ⟨slashed ('/' :: more) part,?_,.share hs hsh (.inr ?_),names_slashed _ part⟩
      · have hlast : ('/' :: '/' :: (server ++ '/' :: share) ++ '/' :: more).getLast? = ('/' :: more).getLast? := by
          simp [List.getLast?_append,List.getLast?_cons]
        rw [slashed,slashed,hlast]
        split <;> simp
      · unfold slashed
        split
        · exact ⟨_,rfl⟩
        · exact ⟨_,rfl⟩

theorem normalize_bare (h : Rooted root []) (hne : root ≠ []) : normalize root = root := by
  have heq := normalize_eq h
  rw [List.append_nil] at heq
  rw [heq]
  simp [keptNames,assemble,joined,hne]

theorem drive_named {c : Char} (hc : isDriveLetter c = true) : Named [c,':'] := by
  have hne : c ≠ '/' := by
    rintro rfl
    exact absurd hc (by decide)
  exact ⟨by simp,by simp,by simp [Ne.symm hne]⟩

theorem rooted_drive_alone {c : Char} (hc : isDriveLetter c = true) : Rooted [] [c,':'] := by
  have hne : c ≠ '/' := by
    rintro rfl
    exact absurd hc (by decide)
  exact .relative (by simp [Unslashed,hne]) (by simp)

theorem keptNames_drive_alone {c : Char} (hc : isDriveLetter c = true) : keptNames [] [c,':'] = [[c,':']] := by
  have hall : ∀ part ∈ ([[c,':']] : List Part), Named part := by simpa using drive_named hc
  have hnames : names [c,':'] = [[c,':']] := by simpa [joined] using names_joined hall
  rw [keptNames,hnames]
  exact foldl_keep_plain [[c,':']] [] hall (by simp)

theorem normalize_join_dot {base : List Char} (h : Unfinished base) : normalize (join base ['.']) ≠ normalize base := by
  have hdot : isAbsolute ['.'] = false := by decide
  rcases h with ⟨c,hc,rfl⟩ | ⟨server,hs,rfl | rfl⟩
  · have hjoin : join [c,':'] ['.'] = [c,':','/'] ++ ['.'] := by simp [join,hdot]
    have hbase := normalize_eq (rooted_drive_alone hc)
    have hroot := normalize_eq (@Rooted.drive c ['.'] hc)
    have hkept : keptNames [c,':','/'] ['.'] = [] := by
      rw [keptNames,show names ['.'] = [] by decide]
      rfl
    rw [List.nil_append,keptNames_drive_alone hc] at hbase
    rw [hjoin,hroot,hbase,hkept]
    simp [assemble,joined]
  · have hbase := normalize_bare (Rooted.server hs) (by simp)
    rw [hbase]
    by_cases hlast : ('/' :: '/' :: server).getLast? = some '/'
    · have hnil : server = [] := by
        by_contra hne
        obtain ⟨c,more,rfl⟩ := List.exists_cons_of_ne_nil hne
        simp only [List.getLast?_cons_cons] at hlast
        exact hs (List.mem_of_getLast? hlast)
      subst hnil
      decide
    · have hjoin : join ('/' :: '/' :: server) ['.'] = '/' :: '/' :: (server ++ '/' :: ['.']) := by
        rw [join,if_neg (by simp [hdot]),if_neg (by simp),if_neg hlast]
        rfl
      rw [hjoin,normalize_bare (Rooted.share hs (by simp) (.inl rfl)) (by simp)]
      simp
  · have hbase := normalize_bare (@Rooted.share server [] [] hs (by simp) (.inl rfl)) (by simp)
    have hjoin : join ('/' :: '/' :: (server ++ ['/'])) ['.'] = '/' :: '/' :: (server ++ '/' :: ['.']) := by
      simp [join,hdot,getLast_slash server]
    rw [hbase,hjoin,normalize_bare (Rooted.share hs (by simp) (.inl rfl)) (by simp)]
    simp

/-! ### Both laws -/

/-- Where the parts of a text lead from its root, or from anywhere: a name is gone down to, and `..` goes back from one. -/
inductive Leads (rooted : Bool) : List Part → List Part → Prop
  | start : Leads rooted [] []
  | stay {parts kept : List Part} {part : Part} : Leads rooted parts kept → part = [] ∨ part = ['.'] → Leads rooted (parts ++ [part]) kept
  | down {parts kept : List Part} {part : Part} : Leads rooted parts kept → part ≠ [] → part ≠ ['.'] → part ≠ ['.','.'] →
    Leads rooted (parts ++ [part]) (kept ++ [part])
  | back {parts kept : List Part} {part : Part} : Leads rooted parts (kept ++ [part]) → part ≠ ['.','.'] →
    Leads rooted (parts ++ [['.','.']]) kept
  | stop {parts : List Part} : rooted = true → Leads rooted parts [] → Leads rooted (parts ++ [['.','.']]) []
  | out {parts kept : List Part} : rooted = false → Leads rooted parts kept → (∀ part ∈ kept, part = ['.','.']) →
    Leads rooted (parts ++ [['.','.']]) (kept ++ [['.','.']])

theorem Leads.eq {rooted : Bool} {parts kept : List Part} (h : Leads rooted parts kept) : kept = parts.foldl (keep rooted) [] := by
  induction h with
  | start => rfl
  | stay _ hp ih => rw [List.foldl_append,← ih,List.foldl_cons,List.foldl_nil,keep_skip hp]
  | down _ h1 h2 h3 ih => rw [List.foldl_append,← ih,List.foldl_cons,List.foldl_nil,keep,if_neg (not_or.2 ⟨h1,h2⟩),if_neg h3]
  | back _ hp ih =>
    rw [List.foldl_append,← ih,List.foldl_cons,List.foldl_nil,keep,if_neg (by simp),if_pos rfl,if_pos (by simp [hp]),List.dropLast_concat]
  | stop hr _ ih => rw [List.foldl_append,← ih,List.foldl_cons,List.foldl_nil,keep,if_neg (by simp),if_pos rfl,if_neg (by simp),if_pos hr]
  | out hr _ hall ih =>
    rename_i kept _
    have hlast : ¬ (kept ≠ [] ∧ kept.getLast? ≠ some ['.','.']) := by
      rintro ⟨hne,hlast⟩
      obtain ⟨part,hpart⟩ := Option.ne_none_iff_exists'.1 (fun hn => hne (List.getLast?_eq_none_iff.1 hn))
      exact hlast (by rw [hpart,hall part (List.mem_of_getLast? hpart)])
    rw [List.foldl_append,← ih,List.foldl_cons,List.foldl_nil,keep,if_neg (by simp),if_pos rfl,if_neg hlast,if_neg (by simp [hr])]

theorem Leads.ups {rooted : Bool} {parts kept : List Part} (h : Leads rooted parts kept) :
    ∀ front back, kept = front ++ ['.','.'] :: back → rooted = false ∧ ∀ part ∈ front, part = ['.','.'] := by
  induction h with
  | start => exact fun front back heq => absurd heq (by simp)
  | stay _ _ ih => exact ih
  | down _ _ _ hup ih =>
    intro front back heq
    cases back using List.reverseRecOn with
    | nil => exact absurd (List.append_inj_right' heq rfl) (by simpa using hup)
    | append_singleton back last _ =>
      rw [← List.cons_append,← List.append_assoc] at heq
      exact ih front back (List.append_inj_left' heq rfl)
  | back _ _ ih =>
    intro front back heq
    exact ih front _ (by rw [heq,List.append_assoc,List.cons_append])
  | stop => exact fun front back heq => absurd heq (by simp)
  | out hr _ hall =>
    intro front back heq
    refine ⟨hr,fun part hpart => ?_⟩
    have hmem : part ∈ front ++ ['.','.'] :: back := List.mem_append_left _ hpart
    rw [← heq] at hmem
    rcases List.mem_append.1 hmem with hmem | hmem
    · exact hall part hmem
    · exact List.mem_singleton.1 hmem

theorem leads_foldl (rooted : Bool) (parts : List Part) : Leads rooted parts (parts.foldl (keep rooted) []) := by
  induction parts using List.reverseRecOn with
  | nil => exact .start
  | append_singleton parts part ih =>
    rw [List.foldl_append,List.foldl_cons,List.foldl_nil]
    generalize parts.foldl (keep rooted) [] = kept at ih ⊢
    by_cases hskip : part = [] ∨ part = ['.']
    · rw [keep_skip hskip]
      exact ih.stay hskip
    rw [keep,if_neg hskip]
    by_cases hup : part = ['.','.']
    · subst hup
      rw [if_pos rfl]
      cases kept using List.reverseRecOn with
      | nil =>
        rw [if_neg (by simp)]
        cases hr : rooted with
        | true => exact Leads.stop rfl (hr ▸ ih)
        | false => exact Leads.out rfl (hr ▸ ih) (by simp)
      | append_singleton kept last _ =>
        by_cases hlast : last = ['.','.']
        · subst hlast
          obtain ⟨hr,hall⟩ := ih.ups kept [] rfl
          rw [if_neg (by simp),if_neg (by simp [hr])]
          refine ih.out hr fun part hpart => ?_
          rcases List.mem_append.1 hpart with hpart | hpart
          · exact hall part hpart
          · exact List.mem_singleton.1 hpart
        · rw [if_pos (by simp [hlast]),List.dropLast_concat]
          exact ih.back hlast
    · rw [if_neg hup]
      exact ih.down (not_or.1 hskip).1 (not_or.1 hskip).2 hup

theorem leads_iff (h : Rooted root rest) :
    Leads (isAbsolute (root ++ rest)) (partsAfter (root ++ rest) (rootLength (root ++ rest))) kept ↔ kept = keptNames root rest := by
  rw [← foldl_partsAfter h]
  constructor
  · exact Leads.eq
  · rintro rfl
    exact leads_foldl _ _

theorem Reread.unique {root' root'' : List Char} {kept' kept'' : List Part} (h : Reread root kept root' kept')
    (h' : Reread root kept root'' kept'') : root'' = root' ∧ kept'' = kept' := by
  cases h with
  | drive hc =>
    rename_i c name more
    generalize hk : [c,':'] :: name :: more = kept at h'
    cases h' with
    | drive hc' =>
      cases hk
      exact ⟨rfl,rfl⟩
    | same hno _ => exact absurd ⟨rfl,c,name,more,hc,hk.symm⟩ hno
  | share hs =>
    rename_i server name
    generalize hroot : '/' :: '/' :: (server ++ ['/']) = root at h'
    generalize hk : name :: kept' = kept at h'
    cases h' with
    | drive => cases hroot
    | share hs' =>
      cases hk
      have hsame := List.append_inj_left' (List.cons.inj (List.cons.inj hroot).2).2 rfl
      exact ⟨by rw [hsame],rfl⟩
    | same _ hno => exact absurd (hk.trans (hno server hs hroot.symm)) (by simp)
  | same hdrive hshare =>
    cases h' with
    | drive hc => exact absurd ⟨rfl,_,_,_,hc,rfl⟩ hdrive
    | share hs => exact absurd (hshare _ hs rfl) (by simp)
    | same => exact ⟨rfl,rfl⟩

/-- The root a text is read with once it is normalized, and the names behind it. -/
def Settles (text root : List Char) (names : List Part) : Prop :=
  ∃ kept, Leads (isAbsolute text) (partsAfter text (rootLength text)) kept ∧ Reread (text.take (rootLength text)) kept root names

theorem settles_iff (h : Rooted root rest) {root' : List Char} {kept' : List Part} :
    Settles (root ++ rest) root' kept' ↔ Reread root (keptNames root rest) root' kept' := by
  have htake : (root ++ rest).take (rootLength (root ++ rest)) = root := by rw [h.length,List.take_left]
  unfold Settles
  simp only [leads_iff h,htake,exists_eq_left]

/-- No name is taken for a drive: not the first of a relative text, nor the first of those left of it behind a base it lies under, which is
a whole one where none is left. -/
def Clear (text base : List Char) : Prop :=
  (isAbsolute text = false → ∀ kept, Leads false (partsAfter text (rootLength text)) kept → ¬ DriveLed kept) ∧
  ∀ root names rest, Settles text root (names ++ rest) → Settles base root names → ['.','.'] ∉ rest →
    ¬ DriveLed rest ∧ (rest = [] → ¬ Unfinished base)

theorem isAbsolute_spelled (hn : ∀ part ∈ kept, Named part) : isAbsolute (spelled kept) = false ↔ ¬ DriveLed kept := by
  by_cases hnil : kept = []
  · subst hnil
    exact iff_of_true (by decide) (by simp [DriveLed])
  rw [spelled,if_neg hnil]
  by_cases hled : DriveLed kept
  · obtain ⟨c,name,more,hc,rfl⟩ := hled
    have hroot := (isAbsolute_iff (@Rooted.drive c (joined (name :: more)) hc)).2 (by simp)
    have hj : joined ([c,':'] :: name :: more) = [c,':','/'] ++ joined (name :: more) := joined_cons [c,':'] (by simp)
    rw [hj,hroot]
    exact iff_of_false (by simp) fun hno => hno ⟨c,name,more,hc,rfl⟩
  · have hrel : Rooted [] (joined kept) := .relative (joined_unslashed hn) fun c more hm =>
      Bool.eq_false_iff.2 fun hc => hled (driveLed_of_joined hn hc hm)
    refine iff_of_true (Bool.eq_false_iff.2 fun habs => ?_) hled
    exact (isAbsolute_iff hrel).1 habs rfl

theorem names_spelled (hn : ∀ part ∈ kept, Named part) : names (spelled kept) = kept := by
  by_cases hnil : kept = []
  · subst hnil
    decide
  · rw [spelled,if_neg hnil,names_joined hn]

theorem spelled_ne_nil (hn : ∀ part ∈ kept, Named part) : spelled kept ≠ [] := by
  by_cases hnil : kept = []
  · simp [spelled,hnil]
  · rw [spelled,if_neg hnil]
    exact joined_ne_nil hn hnil

theorem normalize_join (h : Rooted root rest) (hb : ¬ Unfinished (root ++ rest)) {root' : List Char} {kept' more : List Part}
    (hr : Reread root (keptNames root rest) root' kept') (hn : ∀ part ∈ more, Named part) (hup : ['.','.'] ∉ more) (hled : ¬ DriveLed more) :
    normalize (join (root ++ rest) (spelled more)) = assemble root' (kept' ++ more) := by
  obtain ⟨rest',hjoin,h',hnames⟩ := join_rooted h hb ((isAbsolute_spelled hn).2 hled) (spelled_ne_nil hn)
  have hkept : keptNames root rest' = keptNames root rest ++ more := by
    rw [keptNames,hnames,names_spelled hn,List.foldl_append]
    exact foldl_keep_plain more _ hn fun part hpart he => hup (he ▸ hpart)
  rw [hjoin,normalize_eq h',hkept,hr.assemble_append (settled_keptNames root rest).1 hn]

theorem Unfinished.bare (h : Rooted root rest) {base : List Char} (hb : Unfinished base) {root' : List Char} {kept' more : List Part}
    (hbase : Settles base root' kept') (hr : Reread root (keptNames root rest) root' (kept' ++ more)) : more = [] := by
  by_contra hmore
  have hnamed := (settled_keptNames root rest).1
  obtain ⟨rest',-,h',hn,-⟩ := hr.rooted h
  generalize keptNames root rest = taken at hr hnamed
  rcases hb with ⟨c,hc,rfl⟩ | ⟨server,hs,rfl | rfl⟩
  · -- The name of the drive alone is a name, and with more behind it the text was read with a root.
    have hread := (settles_iff (rooted_drive_alone hc)).1 hbase
    rw [keptNames_drive_alone hc] at hread
    obtain ⟨rfl,rfl⟩ := hread.unique (.same (by simp [DriveLed]) (by simp))
    obtain ⟨name,more,rfl⟩ := List.exists_cons_of_ne_nil hmore
    generalize hk : [[c,':']] ++ name :: more = kept at hr
    generalize hroot : ([] : List Char) = root₁ at hr
    cases hr with
    | drive => cases hroot
    | share => cases hroot
    | same hno => exact hno ⟨hroot.symm,c,name,more,hc,hk.symm⟩
  · have hbare := (settles_iff (Rooted.server hs)).1 (by simpa using hbase)
    obtain ⟨rfl,rfl⟩ := hbare.unique (.same (by simp) (by simp [keptNames]))
    have hnil : rest' = [] := by
      generalize hroot : '/' :: '/' :: server = root₁ at h'
      cases h' with
      | relative => cases hroot
      | top => cases hroot
      | drive => cases hroot
      | server => rfl
      | share =>
        cases hroot
        simp at hs
    rw [hnil,names_nil] at hn
    exact hmore (by simpa [keptNames] using hn.symm)
  · have hbare := (settles_iff (@Rooted.share server [] [] hs (by simp) (.inl rfl))).1 (by simpa using hbase)
    obtain ⟨rfl,rfl⟩ := hbare.unique (.same (by simp) (by simp [keptNames]))
    have hkept : keptNames ('/' :: '/' :: (server ++ ['/'])) [] = [] := by simp [keptNames]
    rw [hkept,List.nil_append] at hr
    generalize hroot : '/' :: '/' :: (server ++ ['/']) = root₁ at hr
    cases hr with
    | drive => cases hroot
    | share =>
      rename_i name _
      have hname := hnamed name (by simp)
      exact getLast_share _ hname.1 hname.2.2 (by rw [← hroot]; exact getLast_slash server)
    | same _ hno => exact hmore (hno server hs hroot.symm)

/-- A path stays as it is once it is normalized and is absolute as before, and what it is relative to a base is relative and leads from there to
it again, exactly when no name is taken for a drive. -/
theorem normalize_relativeTo_iff (text base : List Char) :
    ((normalize (normalize text) = normalize text ∧ isAbsolute (normalize text) = isAbsolute text) ∧
      ∀ r, relativeTo text base = some r → isAbsolute r = false ∧ normalize (join base r) = normalize text) ↔ Clear text base := by
  obtain ⟨root,rest,rfl,h⟩ := exists_rooted text
  obtain ⟨rootb,restb,rfl,hb⟩ := exists_rooted base
  obtain ⟨root₁,kept₁,hr⟩ := exists_reread root (keptNames root rest)
  obtain ⟨root₂,kept₂,hrb⟩ := exists_reread rootb (keptNames rootb restb)
  obtain ⟨rest₁,heq,h₁,hn₁,hs₁⟩ := hr.rooted h
  obtain ⟨rest₂,heq₂,h₂,hn₂,-⟩ := hrb.rooted hb
  have hunder := relativeTo_eq h₁ h₂ ((normalize_eq h).trans heq) ((normalize_eq hb).trans heq₂) hn₁ hn₂
  have hback := hr.assemble_eq (settled_keptNames root rest).1
  have habs : isAbsolute (root ++ rest) = false ↔ root = [] := by
    rw [Bool.eq_false_iff,ne_eq,isAbsolute_iff h,not_not]
  have hfirst : (isAbsolute (root ++ rest) = false →
      ∀ kept, Leads false (partsAfter (root ++ rest) (rootLength (root ++ rest))) kept → ¬ DriveLed kept) ↔
      ¬ (root = [] ∧ DriveLed (keptNames root rest)) := by
    constructor
    · rintro hled ⟨hroot,hd⟩
      have ha := habs.2 hroot
      exact hled ha _ (ha ▸ (leads_iff h).2 rfl) hd
    · intro hled ha kept hkept hd
      rw [← ha,leads_iff h] at hkept
      exact hled ⟨habs.1 ha,hkept ▸ hd⟩
  unfold Clear
  rw [hfirst,isAbsolute_normalize h]
  simp only [normalize_normalize,true_and]
  refine and_congr_right fun hled => ?_
  constructor
  · intro hlaw root' names more ht hbase hup
    obtain ⟨rfl,hk⟩ := hr.unique ((settles_iff h).1 ht)
    obtain ⟨rfl,rfl⟩ := hrb.unique ((settles_iff hb).1 hbase)
    have hmore : ∀ part ∈ more, Named part := fun part hpart => hs₁.1 part (by rw [← hk]; exact List.mem_append_right _ hpart)
    obtain ⟨hrel,hto⟩ := hlaw _ ((hunder _).2 ⟨rfl,more,hk.symm,hup,rfl⟩)
    refine ⟨(isAbsolute_spelled hmore).1 hrel,?_⟩
    rintro rfl hbad
    refine normalize_join_dot hbad ?_
    rw [List.append_nil] at hk
    have hsame : normalize (rootb ++ restb) = normalize (root ++ rest) := by
      rw [normalize_eq h,normalize_eq hb,hback,hrb.assemble_eq (settled_keptNames rootb restb).1,hk]
    rw [hsame]
    exact hto
  · intro hclear r hrel
    obtain ⟨rfl,more,rfl,hup,rfl⟩ := (hunder r).1 hrel
    have hmore : ∀ part ∈ more, Named part := fun part hpart => hs₁.1 part (List.mem_append_right _ hpart)
    have hbase := (settles_iff hb).2 hrb
    obtain ⟨hno,hwhole⟩ := hclear _ _ _ ((settles_iff h).2 hr) hbase hup
    have hbad : ¬ Unfinished (rootb ++ restb) := fun hbad => hwhole (Unfinished.bare h hbad hbase hr) hbad
    exact ⟨(isAbsolute_spelled hmore).2 hno,by rw [normalize_join hb hbad hrb hmore hup hno,normalize_eq h,hback]⟩

/-- A name behind `.` is taken for a drive once the `.` is gone. -/
theorem not_normalize_relativeTo : ¬ ∀ text base, (normalize (normalize text) = normalize text ∧ isAbsolute (normalize text) = isAbsolute text) ∧
    ∀ r, relativeTo text base = some r → isAbsolute r = false ∧ normalize (join base r) = normalize text := by
  intro h
  exact absurd (h ['.','/','C',':','/','x'] []).1.2 (by decide)

end Ens.Paths
