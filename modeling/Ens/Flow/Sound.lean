import Ens.Flow.Run

/-! # What the exit analysis answers is so

A tree the analysis takes to exit is never run to its end, and a loop it takes to be endless is never left on its own, as long as
no `break` stands in a block arm of a switch used as a value, where the search for breaks does not look.
-/
set_option linter.all false
namespace Ens.Flow
open Piece Ending

/-! ### Breaks the search does not see -/

mutual

/-- Whether a block arm of a switch used as a value holds a `break` that binds outside that switch. The body of a lambda is
run elsewhere. -/
def Expression.strays : Expression → Bool
  | .trueLiteral => false
  | .other es => operandsStray es
  | .parenthesized e => e.strays
  | .throwExpression e => e.strays
  | .ternary c t f => c.strays || t.strays || f.strays
  | .switchExpression e arms => e.strays || armsContainLoopBreak arms || armsStray arms
  | .tryExpression e => e.strays
  | .call callee es => callee.strays || operandsStray es
  | .lambda _ => false

def Callee.strays : Callee → Bool
  | .identifier _ => false
  | .member e _ _ => e.strays
  | .other e => e.strays

def operandsStray : List Expression → Bool
  | [] => false
  | e :: es => e.strays || operandsStray es

def armsStray : List SwitchArm → Bool
  | [] => false
  | .arm _ (.block ss) :: arms => blockStrays ss || armsStray arms
  | .arm _ (.expression e) :: arms => e.strays || armsStray arms
  | .error :: arms => armsStray arms

def optionalStrays : Option Expression → Bool
  | none => false
  | some e => e.strays

def IfStatement.strays : IfStatement → Bool
  | .conditional c ss none => c.strays || blockStrays ss
  | .conditional c ss (some (.chained d)) => c.strays || blockStrays ss || d.strays
  | .conditional c ss (some (.block ss')) => c.strays || blockStrays ss || blockStrays ss'

def initializerStrays : Option ForInitializer → Bool
  | none => false
  | some (.declaration e) => optionalStrays e
  | some (.expression e) => e.strays

def Statement.strays : Statement → Bool
  | .block ss => blockStrays ss
  | .variableDeclaration e => optionalStrays e
  | .ifStatement c => c.strays
  | .whileStatement c ss => c.strays || blockStrays ss
  | .forStatement i c u ss => initializerStrays i || optionalStrays c || optionalStrays u || blockStrays ss
  | .forEachStatement e ss => e.strays || blockStrays ss
  | .returnStatement e => optionalStrays e
  | .expressionStatement e => e.strays
  | .throwStatement e => e.strays
  | .switchStatement e arms => e.strays || armsStray arms
  | .breakStatement => false
  | .continueStatement => false
  | .rethrowStatement => false
  | .errorStatement => false

def blockStrays : List Statement → Bool
  | [] => false
  | s :: ss => s.strays || blockStrays ss

end

attribute [local grind =] Expression.strays operandsStray armsStray IfStatement.strays Statement.strays blockStrays

def Piece.strays : Piece → Bool
  | expression e => e.strays
  | optionalValue e => optionalStrays e
  | operands es => operandsStray es
  | arm a => armsStray [a]
  | statement s => s.strays
  | statements ss => blockStrays ss
  | conditional c => c.strays
  | loop c u ss => optionalStrays c || optionalStrays u || blockStrays ss
  | items ss => blockStrays ss

/-! ### Answers about an expression -/

theorem neverReturnsOf_unwrap {whole e : Expression} (h : unwrapParentheses whole = unwrapParentheses e) :
    neverReturnsOf callNeverReturns whole e = neverReturns callNeverReturns (unwrapParentheses e) := by
  induction e using unwrapParentheses.induct with
  | case1 inner ih => exact ih h
  | case2 e he =>
    have hcalls : callNeverReturns whole = callNeverReturns e := by
      unfold callNeverReturns
      rw [h]
    cases e with
    | parenthesized inner => exact absurd rfl (he inner)
    | trueLiteral => exact hcalls
    | other es => exact hcalls
    | tryExpression e => exact hcalls
    | call callee es => exact hcalls
    | lambda body => exact hcalls
    | throwExpression e => rfl
    | ternary c t f => rfl
    | switchExpression e arms => rfl

theorem neverReturns_unwrap {e : Expression} :
    neverReturns callNeverReturns e = neverReturns callNeverReturns (unwrapParentheses e) := neverReturnsOf_unwrap rfl

@[simp] theorem neverReturns_parenthesized {e : Expression} :
    neverReturns callNeverReturns (.parenthesized e) = neverReturns callNeverReturns e := by
  rw [neverReturns_unwrap,unwrapParentheses,← neverReturns_unwrap]

@[simp] theorem neverReturns_ternary {c t f : Expression} : neverReturns callNeverReturns (.ternary c t f) =
    (neverReturns callNeverReturns t && neverReturns callNeverReturns f) := rfl

@[simp] theorem neverReturns_switch {e : Expression} {arms : List SwitchArm} :
    neverReturns callNeverReturns (.switchExpression e arms) = (!arms.isEmpty && armsNeverReturn callNeverReturns arms) := rfl

@[simp] theorem neverReturns_call {callee : Callee} {es : List Expression} :
    neverReturns callNeverReturns (.call callee es) = isNoreturn callee := rfl

theorem neverReturns_tried {e : Expression} (h : neverReturns callNeverReturns (.tryExpression e) = true) :
    (match unwrapParentheses e with
      | .call callee _ => isNoreturn callee
      | _ => false) = true := h

theorem neverReturns_try {e : Expression} (h : neverReturns callNeverReturns (.tryExpression e) = true) :
    neverReturns callNeverReturns e = true := by
  have hcall := neverReturns_tried h
  rw [neverReturns_unwrap]
  generalize unwrapParentheses e = core at hcall ⊢
  cases core with
  | call callee es => exact hcall
  | _ => exact absurd hcall Bool.false_ne_true

theorem initialized_neverReturns {i : Option ForInitializer} :
    forInitializerNeverReturns callNeverReturns i = initialValueNeverReturns callNeverReturns (initialized i) := by
  match i with
  | none => rfl
  | some (.declaration e) => rfl
  | some (.expression e) => rfl

theorem initialized_strays {i : Option ForInitializer} : initializerStrays i = optionalStrays (initialized i) := by
  match i with
  | none => rfl
  | some (.declaration e) => rfl
  | some (.expression e) => rfl

theorem operands_stray {callee : Callee} {es : List Expression} (hc : callee.strays = false) (he : operandsStray es = false) :
    operandsStray (callee.operands ++ es) = false := by
  cases callee with
  | identifier callable => exact he
  | member object method callable => exact Bool.or_eq_false_iff.mpr ⟨hc,he⟩
  | other callee => exact Bool.or_eq_false_iff.mpr ⟨hc,he⟩

/-! ### The branches of an `if` -/

theorem if_strays {c : Expression} {ss : List Statement} {e : Option ElseBody} (h : (IfStatement.conditional c ss e).strays = false) :
    c.strays = false ∧ blockStrays ss = false := by
  match e with
  | none => exact Bool.or_eq_false_iff.mp h
  | some (.chained d) => exact Bool.or_eq_false_iff.mp (Bool.or_eq_false_iff.mp h).1
  | some (.block ss') => exact Bool.or_eq_false_iff.mp (Bool.or_eq_false_iff.mp h).1

theorem if_contains {c : Expression} {ss : List Statement} {e : Option ElseBody}
    (h : ifContainsLoopBreak (.conditional c ss e) = false) : blockContainsLoopBreak ss = false := by
  match e with
  | none => exact h
  | some (.chained d) => exact (Bool.or_eq_false_iff.mp h).1
  | some (.block ss') => exact (Bool.or_eq_false_iff.mp h).1

theorem if_terminates {calls : Expression → Bool} {scope : ExitScope} {c : Expression} {ss : List Statement} {e : Option ElseBody}
    (h : ifTerminates calls scope (.conditional c ss e) = true) : blockTerminates calls scope ss = true := by
  match e with
  | none => exact absurd h Bool.false_ne_true
  | some (.chained d) => exact (Bool.and_eq_true_iff.mp h).1
  | some (.block ss') => exact (Bool.and_eq_true_iff.mp h).1

/-! ### Arms one by one -/

theorem armsContainLoopBreak_cons {a : SwitchArm} {arms : List SwitchArm} :
    armsContainLoopBreak (a :: arms) = (armsContainLoopBreak [a] || armsContainLoopBreak arms) := by
  match a with
  | .arm _ (.block _) => simp [armsContainLoopBreak]
  | .arm _ (.expression _) => simp [armsContainLoopBreak]
  | .error => simp [armsContainLoopBreak]

theorem armsStray_cons {a : SwitchArm} {arms : List SwitchArm} : armsStray (a :: arms) = (armsStray [a] || armsStray arms) := by
  match a with
  | .arm _ (.block _) => simp [armsStray]
  | .arm _ (.expression _) => simp [armsStray]
  | .error => simp [armsStray]

theorem armsNeverReturn_cons {calls : Expression → Bool} {a : SwitchArm} {arms : List SwitchArm} :
    armsNeverReturn calls (a :: arms) = (armsNeverReturn calls [a] && armsNeverReturn calls arms) := by
  match a with
  | .arm _ (.block _) => simp [armsNeverReturn]
  | .arm _ (.expression _) => simp [armsNeverReturn]
  | .error => simp [armsNeverReturn]

theorem armsTerminate_cons {calls : Expression → Bool} {scope : ExitScope} {a : SwitchArm} {arms : List SwitchArm} :
    armsTerminate calls scope (a :: arms) = (armsTerminate calls scope [a] && armsTerminate calls scope arms) := by
  match a with
  | .arm _ (.block _) => simp [armsTerminate]
  | .arm _ (.expression _) => simp [armsTerminate]
  | .error => simp [armsTerminate]

theorem arm_absent {f : List SwitchArm → Bool} (hf : ∀ a arms, f (a :: arms) = (f [a] || f arms)) {a : SwitchArm}
    {arms : List SwitchArm} (ha : a ∈ arms) (h : f arms = false) : f [a] = false := by
  induction ha with
  | head arms => exact (Bool.or_eq_false_iff.mp ((hf a arms).symm.trans h)).1
  | tail b _ ih => exact ih (Bool.or_eq_false_iff.mp ((hf b _).symm.trans h)).2

theorem arm_present {f : List SwitchArm → Bool} (hf : ∀ a arms, f (a :: arms) = (f [a] && f arms)) {a : SwitchArm}
    {arms : List SwitchArm} (ha : a ∈ arms) (h : f arms = true) : f [a] = true := by
  induction ha with
  | head arms => exact (Bool.and_eq_true_iff.mp ((hf a arms).symm.trans h)).1
  | tail b _ ih => exact ih (Bool.and_eq_true_iff.mp ((hf b _).symm.trans h)).2

/-! ### One induction over a run -/

def Sound : Piece → Ending → Prop
  | expression e, r => r ≠ broke ∧ (loopConditionAlwaysHolds (some e) → r = gives true) ∧
      (neverReturns callNeverReturns e → r.abrupt)
  | optionalValue e, r => r ≠ broke ∧ (loopConditionAlwaysHolds e → r = gives true) ∧ (initialValueNeverReturns callNeverReturns e → r.abrupt)
  | operands _, r => r ≠ broke
  | arm a, r => (armsContainLoopBreak [a] = false → r ≠ broke) ∧ (armsNeverReturn callNeverReturns [a] → r.abrupt) ∧
      ∀ scope, armsTerminate callNeverReturns scope [a] → r.abrupt
  | statement s, r => (statementContainsLoopBreak s = false → r ≠ broke) ∧
      ∀ scope, statementTerminates callNeverReturns scope s → r.abrupt
  | statements ss, r => (blockContainsLoopBreak ss = false → r ≠ broke) ∧
      ∀ scope, blockTerminates callNeverReturns scope ss → r.abrupt
  | conditional c, r => (ifContainsLoopBreak c = false → r ≠ broke) ∧ ∀ scope, ifTerminates callNeverReturns scope c → r.abrupt
  | loop c _ ss, r => r ≠ broke ∧ (loopNeverEnds c ss → r.abrupt)
  | items _, r => r ≠ broke

theorem abrupt_discarded {r : Ending} (h : r.abrupt) : r.discarded.abrupt := by
  cases r with
  | gives b => exact absurd h Bool.false_ne_true
  | _ => exact h

theorem abrupt_valued {r : Ending} {b : Bool} (h : r.abrupt) : (r.valued b).abrupt := by
  cases r with
  | completes => exact absurd h Bool.false_ne_true
  | _ => exact h

theorem discarded_broke {r : Ending} (h : r ≠ broke) : r.discarded ≠ broke := by
  cases r with
  | broke => exact absurd rfl h
  | _ => exact nofun

theorem valued_broke {r : Ending} {b : Bool} (h : r ≠ broke) : r.valued b ≠ broke := by
  cases r with
  | broke => exact absurd rfl h
  | _ => exact nofun

theorem ends_expression {e : Expression} {r : Ending} (hb : r ≠ broke) (ha : r.abrupt) (he : loopConditionAlwaysHolds (some e) = false) :
    Sound (expression e) r :=
  ⟨hb,fun h => absurd h (Bool.eq_false_iff.mp he),fun _ => ha⟩

theorem run_sound {p : Piece} {r : Ending} (h : Run p r) (hp : p.strays = false) : Sound p r := by
  induction h with
  | trueLiteral => exact ⟨nofun,fun _ => rfl,fun hn => absurd hn Bool.false_ne_true⟩
  | otherGives _ _ => exact ⟨nofun,fun hl => absurd hl Bool.false_ne_true,fun hn => absurd hn Bool.false_ne_true⟩
  | otherEnds _ ha ih => exact ends_expression (ih hp) ha rfl
  | parenthesized _ ih =>
    obtain ⟨hb,hl,hn⟩ := ih hp
    exact ⟨hb,hl,fun h => hn (neverReturns_parenthesized ▸ h)⟩
  | thrown _ _ => exact ⟨nofun,fun hl => absurd hl Bool.false_ne_true,fun _ => rfl⟩
  | thrownEnds _ ha ih => exact ends_expression (ih hp).1 ha rfl
  | @ternary c t f b r _ _ _ ih =>
    simp only [Piece.strays,Expression.strays,Bool.or_eq_false_iff] at hp
    cases b with
    | true =>
      obtain ⟨hb,-,hn⟩ := ih hp.1.2
      exact ⟨hb,fun hl => absurd hl Bool.false_ne_true,fun h => hn (Bool.and_eq_true_iff.mp h).1⟩
    | false =>
      obtain ⟨hb,-,hn⟩ := ih hp.2
      exact ⟨hb,fun hl => absurd hl Bool.false_ne_true,fun h => hn (Bool.and_eq_true_iff.mp h).2⟩
  | ternaryEnds _ ha ih =>
    simp only [Piece.strays,Expression.strays,Bool.or_eq_false_iff] at hp
    exact ends_expression (ih hp.1.1).1 ha rfl
  | @switched e arms a b v r _ ha _ _ ih =>
    simp only [Piece.strays,Expression.strays,Bool.or_eq_false_iff] at hp
    obtain ⟨hb,hn,-⟩ := ih (arm_absent (fun _ _ => armsStray_cons) ha hp.2)
    refine ⟨valued_broke (hb (arm_absent (fun _ _ => armsContainLoopBreak_cons) ha hp.1.2)),fun hl => absurd hl Bool.false_ne_true,
      fun h => abrupt_valued (hn (arm_present (fun _ _ => armsNeverReturn_cons) ha ?_))⟩
    exact (Bool.and_eq_true_iff.mp (neverReturns_switch ▸ h)).2
  | switchedEnds _ ha ih =>
    simp only [Piece.strays,Expression.strays,Bool.or_eq_false_iff] at hp
    exact ends_expression (ih hp.1.1).1 ha rfl
  | tried _ ih =>
    obtain ⟨hb,-,hn⟩ := ih hp
    exact ⟨hb,fun hl => absurd hl Bool.false_ne_true,fun h => hn (neverReturns_try h)⟩
  | callGives _ hr _ => exact ⟨nofun,fun hl => absurd hl Bool.false_ne_true,fun h => absurd (hr.symm.trans h) Bool.false_ne_true⟩
  | callLeaves _ _ => exact ⟨nofun,fun hl => absurd hl Bool.false_ne_true,fun _ => rfl⟩
  | @callEnds callee es r _ ha ih =>
    simp only [Piece.strays,Expression.strays,Bool.or_eq_false_iff] at hp
    exact ends_expression (ih (operands_stray hp.1 hp.2)) ha rfl
  | closure => exact ⟨nofun,fun hl => absurd hl Bool.false_ne_true,fun hn => absurd hn Bool.false_ne_true⟩
  | absent => exact ⟨nofun,fun _ => rfl,fun hn => absurd hn Bool.false_ne_true⟩
  | present _ ih => exact ih hp
  | noOperands => exact nofun
  | operand _ _ _ ih => exact ih (Bool.or_eq_false_iff.mp hp).2
  | operandEnds _ _ ih => exact (ih (Bool.or_eq_false_iff.mp hp).1).1
  | operandSkipped _ ih => exact ih (Bool.or_eq_false_iff.mp hp).2
  | blockArm _ ih =>
    simp only [Piece.strays,armsStray,Bool.or_false] at hp
    obtain ⟨hb,hn⟩ := ih hp
    exact ⟨fun h => hb (Bool.or_eq_false_iff.mp h).1,fun h => absurd h Bool.false_ne_true,
      fun scope h => hn scope (Bool.and_eq_true_iff.mp h).1⟩
  | valueArm _ ih =>
    simp only [Piece.strays,armsStray,Bool.or_false] at hp
    obtain ⟨hb,-,hn⟩ := ih hp
    exact ⟨fun _ => hb,fun h => hn (Bool.and_eq_true_iff.mp h).1,fun _ h => hn (Bool.and_eq_true_iff.mp h).1⟩
  | errorArm => exact ⟨fun _ => nofun,fun h => absurd h Bool.false_ne_true,fun _ h => absurd h Bool.false_ne_true⟩
  | inBlock _ ih => exact ih hp
  | declared _ ih =>
    obtain ⟨hb,-,hn⟩ := ih hp
    exact ⟨fun _ => discarded_broke hb,fun _ h => abrupt_discarded (hn h)⟩
  | evaluated _ ih =>
    obtain ⟨hb,-,hn⟩ := ih hp
    exact ⟨fun _ => discarded_broke hb,fun _ h => abrupt_discarded (hn h)⟩
  | ifArm _ ih => exact ih hp
  | whileLoop _ ih =>
    obtain ⟨hb,hn⟩ := ih (by simpa only [Piece.strays,Statement.strays,optionalStrays,Bool.or_false] using hp)
    exact ⟨fun _ => hb,fun _ => hn⟩
  | forLoop _ _ ihi ih =>
    simp only [Piece.strays,Statement.strays,Bool.or_eq_false_iff,initialized_strays] at hp
    obtain ⟨hb,hn⟩ := ih (by simp only [Piece.strays,hp.1.1.2,hp.1.2,hp.2,Bool.or_self])
    refine ⟨fun _ => hb,fun _ h => ?_⟩
    rcases Bool.or_eq_true_iff.mp h with h | h
    · exact absurd ((ihi hp.1.1.1).2.2 (initialized_neverReturns ▸ h)) Bool.false_ne_true
    · exact hn h
  | forEnds _ ha ih =>
    simp only [Piece.strays,Statement.strays,Bool.or_eq_false_iff,initialized_strays] at hp
    exact ⟨fun _ => (ih hp.1.1.1).1,fun _ _ => ha⟩
  | forEachLoop _ _ _ ih => exact ⟨fun _ => ih (Bool.or_eq_false_iff.mp hp).2,fun _ h => absurd h Bool.false_ne_true⟩
  | forEachEnds _ ha ih => exact ⟨fun _ => (ih (Bool.or_eq_false_iff.mp hp).1).1,fun _ _ => ha⟩
  | breaks => exact ⟨fun h => absurd h.symm Bool.false_ne_true,fun _ _ => rfl⟩
  | continues => exact ⟨fun _ => nofun,fun _ _ => rfl⟩
  | returns _ _ => exact ⟨fun _ => nofun,fun _ _ => rfl⟩
  | returnEnds _ ha ih => exact ⟨fun _ => (ih hp).1,fun _ _ => ha⟩
  | throws _ _ => exact ⟨fun _ => nofun,fun _ _ => rfl⟩
  | throwEnds _ ha ih => exact ⟨fun _ => (ih hp).1,fun _ _ => ha⟩
  | rethrows => exact ⟨fun _ => nofun,fun _ _ => rfl⟩
  | switchArm _ ha _ _ ih =>
    obtain ⟨-,hp⟩ := Bool.or_eq_false_iff.mp hp
    obtain ⟨hb,-,hn⟩ := ih (arm_absent (fun _ _ => armsStray_cons) ha hp)
    refine ⟨fun h => discarded_broke (hb (arm_absent (fun _ _ => armsContainLoopBreak_cons) ha h)),fun scope h => ?_⟩
    exact abrupt_discarded (hn scope (arm_present (fun _ _ => armsTerminate_cons) ha (Bool.and_eq_true_iff.mp h).2))
  | switchEnds _ ha ih => exact ⟨fun _ => (ih (Bool.or_eq_false_iff.mp hp).1).1,fun _ _ => ha⟩
  | nothing => exact ⟨fun _ => nofun,fun _ h => absurd h Bool.false_ne_true⟩
  | noStatements => exact ⟨fun _ => nofun,fun _ h => absurd h Bool.false_ne_true⟩
  | next _ _ ihs ih =>
    obtain ⟨hs,hss⟩ := Bool.or_eq_false_iff.mp hp
    refine ⟨fun h => (ih hss).1 (Bool.or_eq_false_iff.mp h).2,fun scope h => ?_⟩
    rcases Bool.or_eq_true_iff.mp h with h | h
    · exact absurd ((ihs hs).2 scope h) Bool.false_ne_true
    · exact (ih hss).2 scope h
  | ends _ ha ih =>
    exact ⟨fun h => (ih (Bool.or_eq_false_iff.mp hp).1).1 (Bool.or_eq_false_iff.mp h).1,fun _ _ => ha⟩
  | ifEnds _ ha ih => exact ⟨fun _ => (ih (if_strays hp).1).1,fun _ _ => ha⟩
  | thenBranch _ _ _ ih =>
    obtain ⟨hb,hn⟩ := ih (if_strays hp).2
    exact ⟨fun h => hb (if_contains h),fun scope h => hn scope (if_terminates h)⟩
  | noElse _ _ => exact ⟨fun _ => nofun,fun _ h => absurd h Bool.false_ne_true⟩
  | chained _ _ _ ih =>
    obtain ⟨hb,hn⟩ := ih (Bool.or_eq_false_iff.mp hp).2
    exact ⟨fun h => hb (Bool.or_eq_false_iff.mp h).2,fun scope h => hn scope (Bool.and_eq_true_iff.mp h).2⟩
  | elseBranch _ _ _ ih =>
    obtain ⟨hb,hn⟩ := ih (Bool.or_eq_false_iff.mp hp).2
    exact ⟨fun h => hb (Bool.or_eq_false_iff.mp h).2,fun scope h => hn scope (Bool.and_eq_true_iff.mp h).2⟩
  | loopDone _ ih =>
    simp only [Piece.strays,Bool.or_eq_false_iff] at hp
    refine ⟨nofun,fun h => ?_⟩
    exact absurd ((ih hp.1.1).2.1 (Bool.and_eq_true_iff.mp h).1) (by decide)
  | loopEnds _ ha ih =>
    simp only [Piece.strays,Bool.or_eq_false_iff] at hp
    exact ⟨(ih hp.1.1).1,fun _ => ha⟩
  | loopBroke _ _ _ ih =>
    simp only [Piece.strays,Bool.or_eq_false_iff] at hp
    refine ⟨nofun,fun h => absurd rfl ((ih hp.2).1 ?_)⟩
    exact Bool.not_eq_true' _ ▸ (Bool.and_eq_true_iff.mp h).2
  | loopLeft _ _ _ _ => exact ⟨nofun,fun _ => rfl⟩
  | loopUpdate _ _ _ _ ha _ _ ih =>
    simp only [Piece.strays,Bool.or_eq_false_iff] at hp
    exact ⟨(ih hp.1.2).1,fun _ => ha⟩
  | loopAgain _ _ _ _ _ _ _ _ ih => exact ih hp
  | itemsDone => exact nofun
  | itemsBroke _ _ => exact nofun
  | itemsLeft _ _ => exact nofun
  | itemsAgain _ _ _ _ ih => exact ih hp

/-! ### The exit analysis -/

/-- A statement, a block or a loop the exit analysis answers for is never run to its end, whatever is left, as long as no
`break` strays out of a switch used as a value. -/
theorem exits_sound (scope : ExitScope) :
    (∀ s : Statement, s.strays = false → statementTerminates callNeverReturns scope s → ¬ Run (statement s) completes) ∧
    (∀ ss : List Statement, blockStrays ss = false → blockTerminates callNeverReturns scope ss → ¬ Run (statements ss) completes) ∧
    ∀ (c u : Option Expression) (ss : List Statement), (loop c u ss).strays = false → loopNeverEnds c ss → ¬ Run (loop c u ss) completes := by
  refine ⟨fun s hs ht h => ?_,fun ss hs ht h => ?_,fun c u ss hs ht h => ?_⟩
  · exact absurd ((run_sound h hs).2 scope ht) Bool.false_ne_true
  · exact absurd ((run_sound h hs).2 scope ht) Bool.false_ne_true
  · exact absurd ((run_sound h hs).2 ht) Bool.false_ne_true

def spinning : Statement :=
  .whileStatement .trueLiteral [.ifStatement (.conditional (.other []) [.continueStatement]
    (some (.block [.expressionStatement (.call (.identifier (some ⟨true⟩)) [])])))]

theorem exits_sound_spinning : ¬ Run (statement spinning) completes := (exits_sound .function).1 spinning rfl rfl

def straying : Statement :=
  .whileStatement .trueLiteral [.expressionStatement (.parenthesized
    (.switchExpression (.other []) [.arm .default (.block [.breakStatement])]))]

/-- The search for breaks does not enter the block arm, whose `break` leaves the loop. -/
theorem exits_strayed : ¬ ∀ s scope, statementTerminates callNeverReturns scope s → ¬ Run (statement s) completes := by
  intro h
  refine h straying .function rfl (.whileLoop (.loopBroke (.present .trueLiteral) (.ends (.evaluated (r := broke) ?_) rfl)))
  exact .parenthesized (.switched (b := true) (v := true) (r := broke) (.otherGives .noOperands) (List.mem_singleton_self _)
    (.blockArm (.ends .breaks rfl)))

end Ens.Flow
