import PegCompiler.Proofs.Calls
import PegCompiler.Proofs.Soundness

/-!
# Evaluation with values

Evaluation gives a value to what it matches, binds labels to values, and calls host functions. A
label is in scope behind the element of a sequence that bears it, and inside of what follows there;
an action gets the labels of the sequence that it stands around. Predicates decide by what they get,
so evaluation depends on values too.

Without values this is the evaluation of parsing expressions: `Task.exists_eval` says so for
predicates that decide by the position alone.
-/

namespace PegCompiler

variable {α : Type}

/-- The input from position `p` to position `q`. -/
def Setting.slice (σ : Setting) (p q : Nat) : String :=
  String.ofList ((σ.input.take q).drop p)

namespace Expr

/-- The label that the expression bears itself. -/
def label? : Expr → Option String
  | apply _ (.labeled label _ _) _ => label
  | _ => none

/-- Whether the sequence around the expression is to have its value. -/
def isPicked : Expr → Bool
  | apply _ (.labeled _ _ pick) _ => pick
  | _ => false

end Expr

/-- The labels in scope with their values, in the order of their first use. -/
abbrev Env (α : Type) := List (String × Value α)

namespace Env

/-- Gives the label a value. A label that is there already keeps its place. -/
def bind : Env α → String → Value α → Env α
  | [], label, v => [(label, v)]
  | (l, w) :: rest, label, v =>
      if l = label then (l, v) :: rest else (l, w) :: bind rest label v

/-- The labels in scope behind an expression that had the value `v`. -/
def behind (env : Env α) (e : Expr) (v : Value α) : Env α :=
  match e.label? with
  | some label => env.bind label v
  | none => env

/-- The call of host code, which gets all labels in scope. -/
def call (env : Env α) (predicate : Bool) (code : String) (savedPosition position : Nat) :
    Call α :=
  ⟨⟨predicate, env.map (·.1), code⟩, env.map (·.2), savedPosition, position⟩

end Env

namespace Call

/-- Whether the predicate that is called holds. -/
def holds (h : Host α) (call : Call α) : Bool :=
  h.predicate call.function call.args call.position

/-- The value of the action that is called. -/
def value (h : Host α) (call : Call α) : Value α :=
  h.action call.function call.args call.savedPosition call.position

end Call

/-- What an evaluation comes to: on success the position behind what was consumed and the value, and
in any case all calls so far. -/
structure Answer (α : Type) where
  result : Option (Nat × Value α)
  calls : List (Call α)

namespace Answer

/-- The position behind what was consumed. -/
def position? (a : Answer α) : Option Nat :=
  a.result.map Prod.fst

/-- The answer of an action around what was matched from `start` to `q`. -/
def ofAction (h : Host α) (env : Env α) (code : String) (start q : Nat) (calls : List (Call α)) :
    Answer α :=
  let call := env.call false code start q
  ⟨some (q, call.value h), calls ++ [call]⟩

end Answer

/-- What the elements of a sequence have come to. -/
structure Gathered (α : Type) where
  env : Env α
  values : List (Value α)
  picked : List (Value α)

namespace Gathered

def add (done : Gathered α) (e : Expr) (v : Value α) : Gathered α where
  env := done.env.behind e v
  values := done.values ++ [v]
  picked := if e.isPicked then done.picked ++ [v] else done.picked

/-- The value of a sequence without an action: what was picked, or else all values. -/
def value (done : Gathered α) : Value α :=
  if done.picked.isEmpty then .array done.values else .ofList done.picked

def answer (done : Gathered α) (h : Host α) (action : Option String) (start q : Nat)
    (calls : List (Call α)) : Answer α :=
  match action with
  | some code => .ofAction h done.env code start q calls
  | none => ⟨some (q, done.value), calls⟩

end Gathered

/-- The answer of a leaf that is no reference. -/
def Leaf.answer (σ : Setting) (h : Host α) (env : Env α) (p : Nat) (calls : List (Call α)) :
    Leaf → Answer α
  | semanticAnd code =>
      let call := env.call true code.text p p
      ⟨if call.holds h then some (p, .undefined) else none, calls ++ [call]⟩
  | semanticNot code =>
      let call := env.call true code.text p p
      ⟨if call.holds h then none else some (p, .undefined), calls ++ [call]⟩
  | l => ⟨(l.match? σ p).map fun q => (q, .text (σ.slice p q)), calls⟩

/-- The answer of an operator that repeats nothing at position `p`, given that of its body `e`. -/
def Operator.answer (σ : Setting) (h : Host α) (env : Env α) (p : Nat) (e : Expr)
    (body : Answer α) : Operator → Answer α
  | action code =>
      match body.result with
      | some (q, v) => .ofAction h (env.behind e v) code.text p q body.calls
      | none => body
  | text => { body with result := body.result.map fun (q, _) => (q, .text (σ.slice p q)) }
  | simpleAnd => { body with result := body.result.map fun _ => (p, .undefined) }
  | simpleNot => { body with result := if body.result.isSome then none else some (p, .undefined) }
  | optional => { body with result := some (body.result.getD (p, .null)) }
  | _ => body

/-- What there is to evaluate, with the labels in scope. -/
inductive Task (α : Type) where
  | expr (e : Expr) (env : Env α)
  /-- The first of the expressions that succeeds. -/
  | first (es : List Expr) (env : Env α)
  /-- The elements of a sequence behind those that are done, and the action to follow. -/
  | elements (action : Option String) (start : Nat) (es : List Expr) (done : Gathered α)
  /-- An expression as often as it succeeds, behind iterations that are done. -/
  | many (e : Expr) (env : Env α) (done : List (Value α))

namespace Task

/-- Evaluation that gives up when it runs out of `fuel`. -/
def eval (rules : List Rule) (σ : Setting) (h : Host α) :
    Nat → Task α → Nat → List (Call α) → Option (Answer α)
  | 0, _, _, _ => none
  | fuel + 1, expr (.choice _ es) env, p, calls => eval rules σ h fuel (first es env) p calls
  | fuel + 1, expr (.sequence _ es) env, p, calls =>
      eval rules σ h fuel (elements none p es ⟨env, [], []⟩) p calls
  | fuel + 1, expr (.leaf _ (.ruleRef name)) _, p, calls =>
      (findRule? rules name).bind fun r => eval rules σ h fuel (expr r.body []) p calls
  | _ + 1, expr (.leaf _ l) env, p, calls => some (l.answer σ h env p calls)
  | fuel + 1, expr (.apply _ (.action code) (.sequence _ (e :: es))) env, p, calls =>
      eval rules σ h fuel (elements (some code.text) p (e :: es) ⟨env, [], []⟩) p calls
  | fuel + 1, expr (.apply _ .zeroOrMore e) env, p, calls =>
      eval rules σ h fuel (many e env []) p calls
  | fuel + 1, expr (.apply _ .oneOrMore e) env, p, calls =>
      (eval rules σ h fuel (expr e env) p calls).bind fun
        | ⟨none, calls⟩ => some ⟨none, calls⟩
        | ⟨some (q, v), calls⟩ => eval rules σ h fuel (many e env [v]) q calls
  | fuel + 1, expr (.apply _ op e) env, p, calls =>
      (eval rules σ h fuel (expr e env) p calls).map fun body => op.answer σ h env p e body
  | _ + 1, first [] _, _, calls => some ⟨none, calls⟩
  | fuel + 1, first (e :: es) env, p, calls =>
      (eval rules σ h fuel (expr e env) p calls).bind fun
        | ⟨none, calls⟩ => eval rules σ h fuel (first es env) p calls
        | ⟨some found, calls⟩ => some ⟨some found, calls⟩
  | _ + 1, elements action start [] done, p, calls => some (done.answer h action start p calls)
  | fuel + 1, elements action start (e :: es) done, p, calls =>
      (eval rules σ h fuel (expr e done.env) p calls).bind fun
        | ⟨none, calls⟩ => some ⟨none, calls⟩
        | ⟨some (q, v), calls⟩ =>
            eval rules σ h fuel (elements action start es (done.add e v)) q calls
  | fuel + 1, many e env done, p, calls =>
      (eval rules σ h fuel (expr e env) p calls).bind fun
        | ⟨none, calls⟩ => some ⟨some (p, .array done), calls⟩
        | ⟨some (q, v), calls⟩ => eval rules σ h fuel (many e env (done ++ [v])) q calls

/-- What there is to evaluate, without values. -/
def goal : Task α → Goal
  | expr e _ => .expr e
  | first es _ => .first es
  | elements _ _ es _ => .all es
  | many e _ _ => .many e

end Task

/-! ## Positions and outcomes -/

variable {rules : List Rule} {σ : Setting} {h : Host α}

theorem Leaf.admits_answer (env : Env α) (p : Nat) (calls : List (Call α)) (l : Leaf) :
    l.outcome.Admits (l.answer σ h env p calls).position? := by
  cases l with
  | semanticAnd code | semanticNot code => trivial
  | _ =>
      have hadmits := Leaf.admits_match? σ p
      simpa [answer, Answer.position?, Function.comp_def] using hadmits _

theorem Operator.position?_answer {op : Operator} (env : Env α) (p : Nat) (e : Expr)
    (body : Answer α) :
    (op.answer σ h env p e body).position? = op.result p body.position? := by
  obtain ⟨_ | ⟨q, v⟩, calls⟩ := body <;> cases op <;> rfl

theorem Gathered.position?_answer (done : Gathered α) (action : Option String) (start q : Nat)
    (calls : List (Call α)) : (done.answer h action start q calls).position? = some q := by
  cases action <;> rfl

namespace Task

/-- What always succeeds does not fail, and what never does not succeed. -/
theorem admits_of_eval {known : String → Outcome} (hknown : Consistent rules known)
    (hrules : ∀ r ∈ rules, r.body.ChoicesNonempty) {fuel p : Nat} {task : Task α}
    {calls : List (Call α)} {a : Answer α} (ha : task.eval rules σ h fuel p calls = some a)
    (hchoices : task.goal.ChoicesNonempty) : task.goal.Admits known a.position? := by
  fun_induction eval rules σ h fuel task p calls generalizing a with
  | case1 => cases ha
  | case2 fuel t es env p calls ih =>
      obtain ⟨hne, hes⟩ := Expr.choicesNonempty_choice.mp hchoices
      exact .choice hne (ih ha hes)
  | case3 fuel t es env p calls ih =>
      exact .sequence (ih ha (Expr.choicesNonempty_sequence.mp hchoices))
  | case4 fuel t name env p calls ih =>
      obtain ⟨r, hr, ha⟩ := Option.bind_eq_some_iff.mp ha
      exact (hknown name r hr).admits (ih r ha (hrules r (mem_of_findRule? hr)))
  | case5 fuel t l env p calls hl =>
      obtain rfl := Option.some.inj ha
      have hadmits := Leaf.admits_answer (σ := σ) (h := h) env p calls l
      cases l with
      | ruleRef name => cases hl name rfl
      | _ => exact hadmits
  | case6 fuel t code t' e es env p calls ih =>
      have hbody := Expr.choicesNonempty_sequence.mp (Expr.choicesNonempty_apply.mp hchoices)
      exact .sequence (t := t') (ih ha hbody)
  | case7 fuel t e env p calls ih => exact ih ha (Expr.choicesNonempty_apply.mp hchoices)
  | case8 fuel t e env p calls ih ihmany =>
      have hbody := Expr.choicesNonempty_apply.mp hchoices
      obtain ⟨⟨_ | ⟨q, v⟩, calls'⟩, he, ha⟩ := Option.bind_eq_some_iff.mp ha
      · obtain rfl := Option.some.inj ha
        exact ih he hbody
      · exact .oneOrMore (ih he hbody) (ihmany q v calls' ha hbody)
  | case9 fuel t op e env p calls _ hz ho ih =>
      obtain ⟨body, he, rfl⟩ := Option.map_eq_some_iff.mp ha
      have hop : op.repetition? = none := by cases op <;> simp_all [Operator.repetition?]
      rw [Operator.position?_answer]
      exact Operator.admits_result hop (ih he (Expr.choicesNonempty_apply.mp hchoices))
  | case10 =>
      obtain rfl := Option.some.inj ha
      exact ⟨by simp, fun _ => rfl⟩
  | case11 fuel e es env p calls ih ihrest =>
      obtain ⟨hbody, hes⟩ := List.forall_mem_cons.mp hchoices
      obtain ⟨⟨_ | ⟨q, v⟩, calls'⟩, he, ha⟩ := Option.bind_eq_some_iff.mp ha
      · exact .firstLater (ih he hbody) (ihrest calls' ha hes)
      · obtain rfl := Option.some.inj ha
        exact .firstHere (ih he hbody)
  | case12 fuel action start done p calls =>
      obtain rfl := Option.some.inj ha
      rw [Gathered.position?_answer]
      exact ⟨fun _ => rfl, by simp⟩
  | case13 fuel action start e es done p calls ih ihrest =>
      obtain ⟨hbody, hes⟩ := List.forall_mem_cons.mp hchoices
      obtain ⟨⟨_ | ⟨q, v⟩, calls'⟩, he, ha⟩ := Option.bind_eq_some_iff.mp ha
      · obtain rfl := Option.some.inj ha
        exact .allStop (ih he hbody)
      · exact .allGo (ih he hbody) (ihrest q v calls' ha hes)
  | case14 fuel e env done p calls ih ihmany =>
      obtain ⟨⟨_ | ⟨q, v⟩, calls'⟩, he, ha⟩ := Option.bind_eq_some_iff.mp ha
      · obtain rfl := Option.some.inj ha
        rfl
      · exact ihmany q v calls' ha hchoices

theorem exists_eval_apply {m p : Nat} {t : Tag} {op : Operator} {e : Expr} {env : Env α}
    {calls : List (Call α)} {body : Option Nat} (hop : op.repetition? = none)
    (hcode : ∀ code t e' es, op = .action code → e ≠ .sequence t (e' :: es))
    (he : ∃ a, eval rules σ h m (expr e env) p calls = some a ∧ a.position? = body) :
    ∃ a, eval rules σ h (m + 1) (expr (.apply t op e) env) p calls = some a ∧
      a.position? = op.result p body := by
  obtain ⟨a, ha, rfl⟩ := he
  refine ⟨op.answer σ h env p e a, ?_, Operator.position?_answer env p e a⟩
  rw [eval, ha, Option.map_some]
  · exact hcode
  · rintro rfl
    cases hop
  · rintro rfl
    cases hop

/-- Where evaluation without values comes to an end, so does this one, with the same result. -/
theorem exists_eval (hpredicate : ∀ f args p, h.predicate f args p = σ.holds f.body p)
    {n m p : Nat} (task : Task α) {o : Option Nat} (ho : task.goal.eval rules σ n p = some o)
    (hnm : n ≤ m) (calls : List (Call α)) :
    ∃ a, task.eval rules σ h m p calls = some a ∧ a.position? = o := by
  induction n generalizing m task p o calls with
  | zero => cases ho
  | succ n ih =>
      obtain ⟨k, rfl⟩ := Nat.exists_eq_add_of_lt hnm
      have hle := Nat.le_add_right n k
      cases task with
      | expr e env =>
          cases e with
          | choice t es => exact ih (first es env) ho hle calls
          | sequence t es => exact ih (elements none p es ⟨env, [], []⟩) ho hle calls
          | leaf t l =>
              cases l with
              | ruleRef name =>
                  obtain ⟨r, hr, ho⟩ := Option.bind_eq_some_iff.mp ho
                  rw [eval, hr]
                  exact ih (expr r.body []) ho hle calls
              | semanticAnd code | semanticNot code =>
                  obtain rfl := Option.some.inj ho
                  refine ⟨_, rfl, ?_⟩
                  simp only [Leaf.answer, Answer.position?, Leaf.match?, Call.holds, hpredicate,
                    Env.call]
                  split <;> rfl
              | _ =>
                  obtain rfl := Option.some.inj ho
                  exact ⟨_, rfl, by simp [Leaf.answer, Answer.position?, Function.comp_def]⟩
          | apply t op e =>
              by_cases hz : op = .zeroOrMore
              · subst hz
                exact ih (many e env []) ho hle calls
              by_cases ho' : op = .oneOrMore
              · subst ho'
                obtain ⟨found, he, ho⟩ := Option.bind_eq_some_iff.mp ho
                obtain ⟨⟨result, calls'⟩, ha, rfl⟩ := ih (expr e env) he hle calls
                rw [eval, ha]
                cases result with
                | none => exact ⟨_, rfl, Option.some.inj ho⟩
                | some found => exact ih (many e env [found.2]) ho hle calls'
              have hop : op.repetition? = none := by cases op <;> simp_all [Operator.repetition?]
              rw [goal, Goal.eval] at ho
              · obtain ⟨body, he, rfl⟩ := Option.map_eq_some_iff.mp ho
                by_cases hcode : ∃ code t e' es, op = .action code ∧ e = .sequence t (e' :: es)
                · obtain ⟨code, t', e', es, rfl, rfl⟩ := hcode
                  cases n with
                  | zero => cases he
                  | succ n =>
                      exact ih (elements (some code.text) p (e' :: es) ⟨env, [], []⟩)
                        (Goal.eval_succ he) hle calls
                · refine exists_eval_apply hop ?_ (ih (expr e env) he hle calls)
                  rintro code t' e' es rfl rfl
                  exact hcode ⟨code, t', e', es, rfl, rfl⟩
              · exact hz
              · exact ho'
      | first es env =>
          cases es with
          | nil => exact ⟨_, rfl, Option.some.inj ho⟩
          | cons e es =>
              obtain ⟨found, he, ho⟩ := Option.bind_eq_some_iff.mp ho
              obtain ⟨⟨result, calls'⟩, ha, rfl⟩ := ih (expr e env) he hle calls
              rw [eval, ha]
              cases result with
              | none => exact ih (first es env) ho hle calls'
              | some found => exact ⟨_, rfl, Option.some.inj ho⟩
      | elements action start es done =>
          cases es with
          | nil => exact ⟨_, rfl, (Gathered.position?_answer done action start p calls).trans
              (Option.some.inj ho)⟩
          | cons e es =>
              obtain ⟨found, he, ho⟩ := Option.bind_eq_some_iff.mp ho
              obtain ⟨⟨result, calls'⟩, ha, rfl⟩ := ih (expr e done.env) he hle calls
              rw [eval, ha]
              cases result with
              | none => exact ⟨_, rfl, Option.some.inj ho⟩
              | some found => exact ih (elements action start es (done.add e found.2)) ho hle calls'
      | many e env done =>
          obtain ⟨found, he, ho⟩ := Option.bind_eq_some_iff.mp ho
          obtain ⟨⟨result, calls'⟩, ha, rfl⟩ := ih (expr e env) he hle calls
          rw [eval, ha]
          cases result with
          | none => exact ⟨_, rfl, Option.some.inj ho⟩
          | some found => exact ih (many e env (done ++ [found.2])) ho hle calls'

open Build in
/-- The predicate gets the name, and the action the name and what is picked of the number. -/
example :
    (expr (action (sequence [labeled "name" any, semanticAnd "isFree(name)", literal "=",
        labeled "value" (group (sequence [optional (literal "-"), pluck any]))])
        "return [name, value];") []).eval []
      ⟨"a=-7".toList, fun _ _ => true, fun _ _ => true⟩
      (⟨fun _ args _ _ => .array args, fun _ _ _ => true⟩ : Host Unit) 12 0 [] =
    some ⟨some (4, .array [.text "a", .text "7"]),
      [⟨⟨true, ["name"], "isFree(name)"⟩, [.text "a"], 1, 1⟩,
        ⟨⟨false, ["name", "value"], "return [name, value];"⟩, [.text "a", .text "7"], 0, 4⟩]⟩ := by
  rfl

end Task

/-! ## Evaluation after inference -/

section Annotated

open Inference

variable {k : String → Outcome}

@[simp] theorem Expr.label?_annotate (e : Expr) : (e.annotate k).label? = e.label? := by
  cases e with
  | apply t op e => cases op <;> rfl
  | _ => simp [annotate, label?]

@[simp] theorem Expr.isPicked_annotate (e : Expr) : (e.annotate k).isPicked = e.isPicked := by
  cases e with
  | apply t op e => cases op <;> rfl
  | _ => simp [annotate, isPicked]

theorem Expr.exists_sequence_of_annotate {e : Expr} {t : Tag} {es' : List Expr}
    (he : e.annotate k = .sequence t es') :
    ∃ t' es, e = .sequence t' es ∧ es' = es.map (annotate k) := by
  cases e with
  | sequence t' es =>
      rw [annotate_sequence] at he
      exact ⟨t', es, rfl, (Expr.sequence.inj he).2.symm⟩
  | _ => simp [annotate] at he

@[simp] theorem Env.behind_annotate (env : Env α) (e : Expr) (v : Value α) :
    env.behind (e.annotate k) v = env.behind e v := by
  rw [behind, behind, Expr.label?_annotate]

@[simp] theorem Gathered.add_annotate (done : Gathered α) (e : Expr) (v : Value α) :
    done.add (e.annotate k) v = done.add e v := by
  simp [add]

@[simp] theorem Operator.answer_annotate {op : Operator} (env : Env α) (p : Nat) (e : Expr)
    (body : Answer α) :
    op.answer σ h env p (e.annotate k) body = op.answer σ h env p e body := by
  cases op <;> simp [answer]

namespace Task

/-- What there is to evaluate, with an outcome at every node. -/
def annotate (k : String → Outcome) : Task α → Task α
  | expr e env => expr (e.annotate k) env
  | first es env => first (es.map (Expr.annotate k)) env
  | elements action start es done => elements action start (es.map (Expr.annotate k)) done
  | many e env done => many (e.annotate k) env done

theorem eval_annotate (k : String → Outcome) (fuel : Nat) (task : Task α) (p : Nat)
    (calls : List (Call α)) :
    (task.annotate k).eval rules σ h fuel p calls = task.eval rules σ h fuel p calls := by
  fun_induction eval rules σ h fuel task p calls with
  | case1 => rfl
  | case2 fuel t es env p calls ih => rw [annotate, Expr.annotate_choice, eval]; exact ih
  | case3 fuel t es env p calls ih => rw [annotate, Expr.annotate_sequence, eval]; exact ih
  | case4 fuel t name env p calls ih => rfl
  | case5 fuel t l env p calls hl => rw [annotate, Expr.annotate, eval]; exact hl
  | case6 fuel t code t' e es env p calls ih =>
      rw [annotate, Expr.annotate, Expr.annotate_sequence, List.map_cons, eval]
      exact ih
  | case7 fuel t e env p calls ih => exact ih
  | case8 fuel t e env p calls ih ihmany =>
      simp only [annotate] at ih ihmany
      simp only [annotate, Expr.annotate, eval, ih, ihmany]
  | case9 fuel t op e env p calls hcode hz ho ih =>
      simp only [annotate] at ih
      rw [annotate, Expr.annotate, eval, ih]
      · simp
      · rintro code t' e' es' rfl he
        obtain ⟨t', es, rfl, hes⟩ := Expr.exists_sequence_of_annotate he
        cases es with
        | nil => cases hes
        | cons e es => exact hcode code t' e es rfl rfl
      · exact hz
      · exact ho
  | case10 => rfl
  | case11 fuel e es env p calls ih ihrest =>
      simp only [annotate] at ih ihrest
      simp only [annotate, List.map_cons, eval, ih, ihrest]
  | case12 => rfl
  | case13 fuel action start e es done p calls ih ihrest =>
      simp only [annotate] at ih ihrest
      simp only [annotate, List.map_cons, eval, ih, ihrest, Gathered.add_annotate]
  | case14 fuel e env done p calls ih ihmany =>
      simp only [annotate] at ih ihmany
      simp only [annotate, eval, ih, ihmany]

/-- Inference does not change the values. -/
theorem eval_of_progress {rules rules' : List Rule} (hprog : Progress rules rules') (fuel : Nat)
    (task : Task α) (p : Nat) (calls : List (Call α)) :
    task.eval rules' σ h fuel p calls = task.eval rules σ h fuel p calls := by
  fun_induction eval rules' σ h fuel task p calls with
  | case1 => rfl
  | case2 fuel t es env p calls ih => exact ih
  | case3 fuel t es env p calls ih => exact ih
  | case4 fuel t name env p calls ih =>
      rcases hprog.findRule? name with ⟨hr, hr'⟩ | ⟨r, r', hr, hr', hstep⟩
      · rw [eval, hr, hr']
        rfl
      · rw [eval, hr, hr', Option.bind_some, Option.bind_some, ih]
        rcases hstep with rfl | ⟨k, rfl⟩
        · rfl
        · exact eval_annotate k fuel (expr r.body []) p calls
  | case5 fuel t l env p calls hl => rw [eval]; exact hl
  | case6 fuel t code t' e es env p calls ih => exact ih
  | case7 fuel t e env p calls ih => exact ih
  | case8 fuel t e env p calls ih ihmany => simp only [eval, ih, ihmany]
  | case9 fuel t op e env p calls hcode hz ho ih =>
      rw [eval, ih]
      · exact hcode
      · exact hz
      · exact ho
  | case10 => rfl
  | case11 fuel e es env p calls ih ihrest => simp only [eval, ih, ihrest]
  | case12 => rfl
  | case13 fuel action start e es done p calls ih ihrest => simp only [eval, ih, ihrest]
  | case14 fuel e env done p calls ih ihmany => simp only [eval, ih, ihmany]

end Task

end Annotated

end PegCompiler
