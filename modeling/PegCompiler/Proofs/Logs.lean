import PegCompiler.Proofs.Values

/-!
# Logs of lowering

What lowering comes to on its way does not always show in the code: a part that a known outcome
rules out is lowered and left away. A log tells what has happened all the same. It holds which
labeled expressions put their label into a scope, with what scope each sequence comes to its end,
and which functions are called, for which labeled expressions. The code beside the log is that of
lowering.
-/

namespace PegCompiler

/-- A node of an expression, with those around it from the inside out. -/
structure Site where
  node : Expr
  around : List Expr

namespace Site

/-- Whether the site is one of the expression `e`. -/
inductive Of (e : Expr) : Site → Prop where
  | root : Of e ⟨e, []⟩
  | child {s : Site} {n : Expr} (hs : Of e s) (hn : n ∈ s.node.children) :
      Of e ⟨n, s.node :: s.around⟩

/-- The action that the node is the body of. -/
def action? (s : Site) : Option Code :=
  match s.around with
  | .apply _ (.action code) _ :: _ => some code
  | _ => none

/-- The code that the node calls by itself when it is the body of an action. -/
def called? (s : Site) : Option String :=
  if s.node.callsAction then s.action?.map (·.text) else none

end Site

/-! ## Names in scope -/

namespace Scope

@[simp] theorem names_inner (s : Scope) : s.inner.names = s.names := rfl

theorem map_fst_bind (labels : List (String × Nat)) (label : String) (slot : Nat) :
    (bind labels label slot).map (·.1) =
      if label ∈ labels.map (·.1) then labels.map (·.1) else labels.map (·.1) ++ [label] := by
  induction labels with
  | nil => rfl
  | cons first rest ih =>
      by_cases hfirst : first.1 = label
      · simp [bind, hfirst]
      · simp only [bind, if_neg hfirst, List.map_cons, ih, List.mem_cons, Ne.symm hfirst, false_or]
        split <;> rfl

theorem names_mark_some (s : Scope) (label : String) (pick : Bool) (slot : Nat) :
    (s.mark (some label) pick slot).names =
      if label ∈ s.names then s.names else s.names ++ [label] :=
  map_fst_bind s.labels label slot

end Scope

/-! ## Operators and their operands -/

namespace Operator

variable (t : Tag) (op : Operator) (e : Expr) (height : Nat) (s : Scope)

/-- The action that the operand calls. -/
def called? : Option String :=
  match op with
  | action code => if e.callsAction then some code.text else none
  | _ => none

/-- The number of slots below the operand. -/
def heightInside : Nat :=
  match op with
  | named _ | labeled _ _ _ | optional | group => height
  | action _ => if e.callsAction then height else height + 1
  | _ => height + 1

def scopeInside : Scope :=
  match op with
  | named _ => s
  | _ => s.inner

/-- What is made of the code of the operand. -/
def lowered (body : Lowered) : Lowered :=
  match op with
  | named name => lowerNamed t.outcome name body
  | action code =>
      if e.callsAction then ⟨body.code, body.symbols, s⟩
      else lowerAction e.outcome code.text height body s
  | labeled label _ pick => ⟨body.code, body.symbols, s.mark label pick height⟩
  | text => lowerText t.outcome body s
  | simpleAnd => lowerSimpleAnd e.outcome body s
  | simpleNot => lowerSimpleNot e.outcome body s
  | optional => lowerOptional e.outcome body s
  | zeroOrMore => lowerZeroOrMore body s
  | oneOrMore => lowerOneOrMore e.outcome body s
  | group => ⟨body.code, body.symbols, s⟩

end Operator

/-- The code of an operator is made of that of its operand. -/
theorem Expr.lower_apply (action : Option String) (t : Tag) (op : Operator) (e : Expr)
    (height : Nat) (s : Scope) :
    (apply t op e).lower action height s =
      op.lowered t e height s
        (e.lower (op.called? e) (op.heightInside e height) (op.scopeInside s)) := by
  cases op with
  | action code =>
      rw [lower]
      simp only [Operator.lowered, Operator.called?, Operator.heightInside, Operator.scopeInside]
      split <;> rfl
  | _ => rfl

/-! ## Logs -/

/-- What lowering comes to. -/
inductive Event where
  /-- The label of a node is put into the scope. -/
  | binds (site : Site) (s : Scope)
  /-- A sequence with `n` elements has all their values on the stack. -/
  | ends (site : Site) (action : Option String) (n height : Nat) (s : Scope)
  /-- A function is called for the labels of the nodes `bound`. -/
  | calls (f : HostFunction) (bound : List Site)

/-- The function that is called. -/
def Event.function? : Event → Option HostFunction
  | calls f _ => some f
  | _ => none

def Symbol.function? : Symbol → Option HostFunction
  | function f => some f
  | _ => none

def Lowered.functions (l : Lowered) : List HostFunction :=
  l.symbols.filterMap Symbol.function?

/-- Lowered code, the nodes whose labels have been put into the scope behind it, whether these were
there before or not, and what has happened until then. -/
structure Log where
  lowered : Lowered
  bound : List Site
  events : List Event

namespace Operator

variable (op : Operator) (site : Site)

def boundBehind (bound inside : List Site) : List Site :=
  match op with
  | named _ => inside
  | labeled (some _) _ _ => bound ++ [site]
  | _ => bound

def bindings (s : Scope) : List Event :=
  match op with
  | labeled (some _) _ _ => [.binds site s]
  | _ => []

/-- The call of an action that its body does not make by itself. -/
def calls (e : Expr) (inside : Log) : List Event :=
  match op with
  | action code =>
      if e.callsAction ∨ e.outcome = .never then []
      else [.calls ⟨false, inside.lowered.scope.names, code.text⟩ inside.bound]
  | _ => []

end Operator

namespace Expr

mutual
/-- The log of an expression whose label scope has the labels of the nodes `bound`. -/
def log (around : List Expr) (bound : List Site) (action : Option String) :
    Expr → Nat → Scope → Log
  | choice t es, height, s => logAlternatives (choice t es :: around) bound es height s
  | sequence t es, height, s =>
      let inside := logElements ⟨sequence t es, around⟩ bound action 0 es (height + 1) s.inner
      ⟨⟨[.op .pushCurrPos []] ++ inside.lowered.code, inside.lowered.symbols,
        ⟨inside.lowered.scope.labels, s.picked⟩⟩, inside.bound, inside.events⟩
  | apply t op e, height, s =>
      let inside := log (apply t op e :: around) bound (op.called? e) e (op.heightInside e height)
        (op.scopeInside s)
      ⟨op.lowered t e height s inside.lowered,
        op.boundBehind ⟨apply t op e, around⟩ bound inside.bound,
        op.bindings ⟨apply t op e, around⟩ s ++ inside.events ++ op.calls e inside⟩
  | leaf t l, height, s =>
      let lowered := lowerLeaf t l height s
      ⟨lowered, bound, lowered.functions.map (.calls · bound)⟩

def logAlternatives (around : List Expr) (bound : List Site) : List Expr → Nat → Scope → Log
  | [], _, s => ⟨⟨[], [], s⟩, bound, []⟩
  | e :: es, height, s =>
      let first := log around bound none e height s.inner
      if e.outcome = .always || es.isEmpty then
        ⟨⟨first.lowered.code, first.lowered.symbols, s⟩, bound, first.events⟩
      else
        let rest := logAlternatives around bound es height s
        ⟨⟨first.lowered.code ++ [orElse rest.lowered.code],
          first.lowered.symbols ++ rest.lowered.symbols, s⟩, bound, first.events ++ rest.events⟩

/-- The log of the elements behind the first `n` of the sequence at `site`. -/
def logElements (site : Site) (bound : List Site) (action : Option String) (n : Nat) :
    List Expr → Nat → Scope → Log
  | [], height, s =>
      let lowered := sequenceEnd action n height s
      ⟨lowered, bound, .ends site action n height s :: lowered.functions.map (.calls · bound)⟩
  | e :: es, height, s =>
      let first := log (site.node :: site.around) bound none e height s
      let rest := logElements site first.bound action (n + 1) es (height + 1) first.lowered.scope
      ⟨⟨first.lowered.code ++ condition e.outcome .ifNotError [] rest.lowered.code (unwind (n + 1)),
        first.lowered.symbols ++ rest.lowered.symbols, rest.lowered.scope⟩, rest.bound,
        first.events ++ rest.events⟩
end

end Expr

def Rule.log (r : Rule) : Log :=
  r.body.log [] [] none 0 .empty

/-! ## The code beside the log -/

section Lists

variable {es : List Expr}

theorem lowered_logAlternatives
    (hes : ∀ e ∈ es, ∀ around bound action height s,
      (e.log around bound action height s).lowered = e.lower action height s)
    (around : List Expr) (bound : List Site) (height : Nat) (s : Scope) :
    (Expr.logAlternatives around bound es height s).lowered =
      Expr.lowerAlternatives es height s := by
  induction es with
  | nil => rfl
  | cons e es ih =>
      obtain ⟨he, hes⟩ := List.forall_mem_cons.mp hes
      rw [Expr.logAlternatives, Expr.lowerAlternatives]
      simp only [he, ← ih hes]
      split <;> rfl

theorem lowered_logElements
    (hes : ∀ e ∈ es, ∀ around bound action height s,
      (e.log around bound action height s).lowered = e.lower action height s)
    (site : Site) (bound : List Site) (action : Option String) (n height : Nat) (s : Scope) :
    (Expr.logElements site bound action n es height s).lowered =
      Expr.lowerElements action n es height s := by
  induction es generalizing bound n height s with
  | nil => rfl
  | cons e es ih =>
      obtain ⟨he, hes⟩ := List.forall_mem_cons.mp hes
      rw [Expr.logElements, Expr.lowerElements]
      simp only [he, ih hes]

end Lists

theorem Expr.lowered_log (e : Expr) (around : List Expr) (bound : List Site)
    (action : Option String) (height : Nat) (s : Scope) :
    (e.log around bound action height s).lowered = e.lower action height s := by
  induction e generalizing around bound action height s with
  | choice t es ih => exact lowered_logAlternatives ih (choice t es :: around) bound height s
  | sequence t es ih =>
      rw [log, lower]
      simp only [lowered_logElements ih]
  | apply t op e ih =>
      rw [lower_apply, ← ih (apply t op e :: around) bound]
      rfl
  | leaf t l => rfl

theorem Rule.lowered_log (r : Rule) : r.log.lowered = r.lower :=
  r.body.lowered_log [] [] none 0 .empty

/-! ## Calls in the log -/

/-- The functions that are called, in order. -/
def Log.functions (l : Log) : List HostFunction :=
  l.events.filterMap Event.function?

theorem function?_calls (fs : List HostFunction) (bound : List Site) :
    (fs.map (Event.calls · bound)).filterMap Event.function? = fs := by
  rw [List.filterMap_map]
  exact List.filterMap_some

/-- What happens in a choice happens in one of its alternatives. -/
theorem forall_mem_logAlternatives {P : Event → Prop} {es : List Expr} {around : List Expr}
    {bound : List Site} {height : Nat} {s : Scope}
    (hes : ∀ e ∈ es, ∀ event ∈ (e.log around bound none height s.inner).events, P event) :
    ∀ event ∈ (Expr.logAlternatives around bound es height s).events, P event := by
  induction es with
  | nil => simp [Expr.logAlternatives]
  | cons e es ih =>
      obtain ⟨he, hes⟩ := List.forall_mem_cons.mp hes
      rw [Expr.logAlternatives]
      dsimp only
      split
      · exact he
      · exact List.forall_mem_append.mpr ⟨he, ih hes⟩

/-- Whether the log has the calls of all functions that the code asks for. -/
def Log.CallsAll (l : Log) : Prop :=
  l.functions = l.lowered.functions

section Calls

variable {es : List Expr}

theorem logAlternatives_callsAll
    (hes : ∀ e ∈ es, ∀ around bound action height s, (e.log around bound action height s).CallsAll)
    (around : List Expr) (bound : List Site) (height : Nat) (s : Scope) :
    (Expr.logAlternatives around bound es height s).CallsAll := by
  induction es with
  | nil => rfl
  | cons e es ih =>
      obtain ⟨he, hes⟩ := List.forall_mem_cons.mp hes
      have hfirst := he around bound none height s.inner
      rw [Expr.logAlternatives]
      dsimp only
      split
      · exact hfirst
      · exact (List.filterMap_append ..).trans
          ((congrArg₂ _ hfirst (ih hes)).trans (List.filterMap_append ..).symm)

theorem logElements_callsAll
    (hes : ∀ e ∈ es, ∀ around bound action height s, (e.log around bound action height s).CallsAll)
    (site : Site) (bound : List Site) (action : Option String) (n height : Nat) (s : Scope) :
    (Expr.logElements site bound action n es height s).CallsAll := by
  induction es generalizing bound n height s with
  | nil => exact function?_calls _ bound
  | cons e es ih =>
      obtain ⟨he, hes⟩ := List.forall_mem_cons.mp hes
      have hfirst := he (site.node :: site.around) bound none height s
      exact (List.filterMap_append ..).trans
        ((congrArg₂ _ hfirst (ih hes ..)).trans (List.filterMap_append ..).symm)

end Calls

/-- What an operator calls itself it calls behind its operand. -/
theorem Operator.functions_lowered (t : Tag) (op : Operator) (e : Expr) (height : Nat) (s : Scope)
    (inside : Log) :
    (op.lowered t e height s inside.lowered).functions =
      inside.lowered.functions ++ (op.calls e inside).filterMap Event.function? := by
  cases op with
  | named name =>
      have hexpected : (if t.outcome = .sometimes then [Symbol.expectation (.rule name)]
          else []).filterMap Symbol.function? = [] := by
        split <;> rfl
      simp [Operator.lowered, Lowered.functions, lowerNamed, Operator.calls, hexpected]
  | action code =>
      by_cases hcalls : e.callsAction
      · simp [Operator.lowered, Lowered.functions, Operator.calls, hcalls]
      · by_cases hnever : e.outcome = .never
        · simp [Operator.lowered, Lowered.functions, lowerAction, Operator.calls, hcalls, hnever]
        · simp [Operator.lowered, Lowered.functions, lowerAction, Operator.calls, hcalls, hnever,
            Symbol.function?, Event.function?]
  | _ => exact (List.append_nil _).symm

theorem Expr.log_callsAll (e : Expr) (around : List Expr) (bound : List Site)
    (action : Option String) (height : Nat) (s : Scope) :
    (e.log around bound action height s).CallsAll := by
  induction e generalizing around bound action height s with
  | choice t es ih => exact logAlternatives_callsAll ih _ bound height s
  | sequence t es ih => exact logElements_callsAll ih _ bound action 0 (height + 1) s.inner
  | apply t op e ih =>
      have hinside := ih (apply t op e :: around) bound (op.called? e) (op.heightInside e height)
        (op.scopeInside s)
      have hbindings : (op.bindings ⟨apply t op e, around⟩ s).filterMap Event.function? = [] := by
        unfold Operator.bindings
        split <;> rfl
      rw [Log.CallsAll, log, Operator.functions_lowered, ← hinside, Log.functions,
        List.filterMap_append, List.filterMap_append, hbindings, List.nil_append]
      rfl
  | leaf t l => exact function?_calls _ bound

end PegCompiler
