import PegCompiler.Bytecode.Script
import PegCompiler.Proofs.Tracking

/-!
# Histories of a tracker

A history has all steps of a script that have run, with the trackers in front of them and behind
them: those of a block in front of the step that has the block. The top stays among the slots that
were used, and every name that is handed out is declared from then on, as long as counts and offsets
are numbers that a signed word can hold. A larger one is taken for a negative number, and then an
empty stack gets a slot that nobody declares.
-/

namespace PegCompiler

open Slots

/-! ## Computations with a log -/

/-- The answer of a computation, the tracker behind it and the log. -/
def Slots.Logged.exec {α : Type} (x : Logged α) (s : Slots) (es : List Entry) :
    (Except Fault α × Slots) × List Entry :=
  (x.run.run s).run es

namespace Slots.Logged

variable {α β : Type} {s t : Slots} {es es' : List Entry}

@[simp] theorem exec_pure (a : α) : exec (pure a) s es = ((.ok a, s), es) := rfl

@[simp] theorem exec_throw (fault : Fault) :
    exec (throw fault : Logged α) s es = ((.error fault, s), es) := rfl

@[simp] theorem exec_get : exec get s es = ((.ok s, s), es) := rfl

@[simp] theorem exec_modify (f : Slots → Slots) :
    exec (modify f) s es = ((.ok ⟨⟩, f s), es) := rfl

theorem exec_bind (x : Logged α) (f : α → Logged β) :
    exec (x >>= f) s es = match exec x s es with
      | ((.ok a, t), es') => exec (f a) t es'
      | ((.error fault, t), es') => ((.error fault, t), es') := by
  simp only [exec, ExceptT.run_bind, StateT.run_bind]
  generalize (x.run.run s).run es = r
  rcases r with ⟨⟨_ | a, t⟩, es'⟩ <;> rfl

@[simp] theorem exec_map (f : α → β) (x : Logged α) :
    exec (f <$> x) s es = match exec x s es with
      | ((.ok a, t), es') => ((.ok (f a), t), es')
      | ((.error fault, t), es') => ((.error fault, t), es') := by
  simp only [exec, ExceptT.run_map, StateT.run_map]
  generalize (x.run.run s).run es = r
  rcases r with ⟨⟨_ | a, t⟩, es'⟩ <;> rfl

theorem exec_logged (x : Logged Answer) :
    exec (logged x) s es = match exec x s es with
      | ((answer, t), es') => ((answer.map fun _ => (), t), es' ++ [⟨answer, t⟩]) := by
  have htry : exec (tryCatch (Except.ok <$> x) fun fault => pure (.error fault) :
      Logged (Except Fault Answer)) s es = match exec x s es with
        | ((answer, t), es') => ((.ok answer, t), es') := by
    have hcatch : exec (tryCatch (Except.ok <$> x) fun fault => pure (.error fault) :
        Logged (Except Fault Answer)) s es = match exec (Except.ok <$> x) s es with
          | ((.ok answer, t), es') => ((.ok answer, t), es')
          | ((.error fault, t), es') => ((.ok (.error fault), t), es') := by
      simp only [exec, ExceptT.run_tryCatch]
      simp only [StateT.run_bind]
      generalize ((Except.ok <$> x).run.run s).run es = r
      rcases r with ⟨⟨_ | a, t⟩, es'⟩ <;> rfl
    rw [hcatch, exec_map]
    rcases exec x s es with ⟨⟨fault | answer, t⟩, es'⟩ <;> rfl
  rw [logged, exec_bind, htry]
  rcases exec x s es with ⟨⟨fault | answer, t⟩, es'⟩ <;> rfl

end Slots.Logged

/-- Whether a computation with a log does what the other one does, and logs nothing. -/
def Unlogged {α : Type} (x : Logged α) (y : Tracked α) : Prop :=
  ∀ s es, x.exec s es = (y.exec s, es)

namespace Unlogged

open Slots.Logged

variable {α β : Type}

theorem pure (a : α) : Unlogged (Pure.pure a) (Pure.pure a) := fun _ _ => rfl

theorem throw (fault : Fault) :
    Unlogged (MonadExcept.throw fault : Logged α) (MonadExcept.throw fault) := fun _ _ => rfl

theorem get : Unlogged MonadState.get MonadState.get := fun _ _ => rfl

theorem set (s : Slots) : Unlogged (MonadStateOf.set s) (MonadStateOf.set s) := fun _ _ => rfl

theorem bind {x : Logged α} {y : Tracked α} {f : α → Logged β} {g : α → Tracked β}
    (hx : Unlogged x y) (hf : ∀ a, Unlogged (f a) (g a)) : Unlogged (x >>= f) (y >>= g) := by
  intro s es
  rw [exec_bind, Tracked.exec_bind, hx s es]
  rcases y.exec s with ⟨fault | a, t⟩
  · rfl
  · exact hf a t es

theorem map {x : Logged α} {y : Tracked α} (hx : Unlogged x y) (f : α → β) :
    Unlogged (f <$> x) (f <$> y) := by
  intro s es
  rw [exec_map, Tracked.exec_map, hx s es]
  rcases y.exec s with ⟨fault | a, t⟩ <;> rfl

theorem name (slot : Int) : Unlogged (Slots.name slot) (Slots.name slot) := by
  unfold Slots.name
  split
  · exact .throw _
  · exact .pure _

theorem push (value : String) : Unlogged (Slots.push value) (Slots.push value) :=
  .bind (fun _ _ => rfl) fun _ => .bind .get fun _ => .bind (.name _) fun _ => .pure _

theorem pop : Unlogged Slots.pop Slots.pop :=
  .bind .get fun _ => .bind (.name _) fun _ => .bind (.set _) fun _ => .pure _

theorem popMany (w : UInt32) : Unlogged (Slots.popMany w) (Slots.popMany w) := by
  refine .bind .get fun s => ?_
  dsimp only
  split
  · exact .bind (.throw _) fun _ => .bind (.set _) fun _ => .pure _
  · exact .bind (.set _) fun _ => .pure _

theorem topName : Unlogged Slots.topName Slots.topName :=
  .bind .get fun _ => .name _

theorem index (w : UInt32) : Unlogged (Slots.index w) (Slots.index w) :=
  .bind .get fun _ => .name _

theorem result : Unlogged Slots.result Slots.result := by
  refine .bind .get fun s => ?_
  dsimp only
  split
  · exact .bind (.throw _) fun _ => .name 0
  · exact .name 0

end Unlogged

/-! ## Histories -/

namespace Slots

/-- A step that has run, with the trackers in front of it and behind it. -/
structure Ran where
  step : Step
  before : Slots
  answer : Except Fault Answer
  after : Slots

/-- The entry of the log for the step. -/
def Ran.entry (r : Ran) : Entry :=
  ⟨r.answer, r.after⟩

namespace Step

mutual
/-- The steps that run inside of a step, its answer and the tracker behind it. -/
def course : Step → Slots → List Ran × Except Fault Answer × Slots
  | push value, s => ([], (.text <$> Slots.push value : Tracked Answer).exec s)
  | pop, s => ([], (.text <$> Slots.pop : Tracked Answer).exec s)
  | popMany n, s => ([], (.names <$> Slots.popMany n : Tracked Answer).exec s)
  | top, s => ([], (.text <$> Slots.topName : Tracked Answer).exec s)
  | index offset, s => ([], (.text <$> Slots.index offset : Tracked Answer).exec s)
  | name slot, s => ([], (.text <$> Slots.name slot : Tracked Answer).exec s)
  | result, s => ([], (.text <$> Slots.result : Tracked Answer).exec s)
  | defines, s => ([], .ok (.text s.defines), s)
  | branch position yes no, s =>
      match courseOf yes s with
      | (ran, .error fault, t) => (ran, .error fault, t)
      | (ran, .ok _, t) =>
          match courseOf no { t with top := s.top } with
          | (more, .error fault, u) => (ran ++ more, .error fault, u)
          | (more, .ok _, u) =>
              (ran ++ more, if t.top = u.top then .ok .branch
                else .error (.unevenBranches s.top t.top u.top position), u)
  | loop position body, s =>
      match courseOf body s with
      | (ran, .error fault, t) => (ran, .error fault, t)
      | (ran, .ok _, t) =>
          (ran, if t.top = s.top then .ok .loop else .error (.unevenLoop s.top t.top position), t)

/-- The steps that run in a block, how it ends and the tracker behind it. -/
def courseOf : List Step → Slots → List Ran × Except Fault Unit × Slots
  | [], s => ([], .ok (), s)
  | step :: steps, s =>
      match course step s with
      | (inside, .error fault, t) =>
          (inside ++ [⟨step, s, .error fault, t⟩], .error fault, t)
      | (inside, .ok answer, t) =>
          match courseOf steps t with
          | (more, ending, u) => (inside ++ ⟨step, s, .ok answer, t⟩ :: more, ending, u)
end

/-- The steps of a script that run, and those inside of them. -/
def history (s : Slots) : List Step → List Ran
  | [] => []
  | step :: steps =>
      match course step s with
      | (inside, answer, t) => inside ++ ⟨step, s, answer, t⟩ :: history t steps

/-- A step without a block does to the tracker what its operation does. -/
theorem exec_logged_of_unlogged {x : Logged Answer} {y : Tracked Answer} (h : Unlogged x y)
    (s : Slots) (es : List Entry) :
    (logged x).exec s es =
      let (answer, t) := y.exec s
      ((answer.map fun _ => (), t), es ++ [⟨answer, t⟩]) := by
  rw [Logged.exec_logged, h s es]

mutual
theorem exec_run (step : Step) (s : Slots) (es : List Entry) :
    (run step).exec s es =
      let (inside, answer, t) := step.course s
      ((answer.map fun _ => (), t), es ++ inside.map Ran.entry ++ [⟨answer, t⟩]) := by
  cases step with
  | branch position yes no =>
      rw [run, Logged.exec_logged, course, checkedIf]
      simp only [Logged.exec_bind, Logged.exec_get, exec_runList yes]
      rcases courseOf yes s with ⟨ran, fault | _, t⟩
      · simp
      simp only [Logged.exec_modify, exec_runList no]
      rcases courseOf no { t with top := s.top } with ⟨more, fault | _, u⟩
      · simp
      by_cases heven : t.top = u.top <;> simp [heven]
  | loop position body =>
      rw [run, Logged.exec_logged, course, checkedLoop]
      simp only [Logged.exec_bind, Logged.exec_get, exec_runList body]
      rcases courseOf body s with ⟨ran, fault | _, t⟩
      · simp
      by_cases heven : t.top = s.top <;> simp [heven]
  | defines =>
      have hreads : (do return .text (← getThe Slots).defines : Logged Answer).exec s es =
          ((.ok (.text s.defines), s), es) := rfl
      rw [run, Logged.exec_logged, hreads, course]
      simp
  | push value => simpa [run, course] using exec_logged_of_unlogged (.map (.push value) _) s es
  | pop => simpa [run, course] using exec_logged_of_unlogged (.map .pop _) s es
  | popMany n => simpa [run, course] using exec_logged_of_unlogged (.map (.popMany n) _) s es
  | top => simpa [run, course] using exec_logged_of_unlogged (.map .topName _) s es
  | index offset => simpa [run, course] using exec_logged_of_unlogged (.map (.index offset) _) s es
  | name slot => simpa [run, course] using exec_logged_of_unlogged (.map (.name slot) _) s es
  | result => simpa [run, course] using exec_logged_of_unlogged (.map .result _) s es

theorem exec_runList (steps : List Step) (s : Slots) (es : List Entry) :
    (runList steps).exec s es =
      let (ran, ending, t) := courseOf steps s
      ((ending, t), es ++ ran.map Ran.entry) := by
  cases steps with
  | nil => simp [runList, courseOf]
  | cons step steps =>
      rw [runList, Logged.exec_bind, exec_run step s es, courseOf]
      rcases step.course s with ⟨inside, fault | answer, t⟩
      · simp [Except.map, Ran.entry]
      · simp only [Except.map, exec_runList steps t]
        simp [Ran.entry]
end

/-- The log of a script tells of its history. -/
theorem logFrom_eq (steps : List Step) (s : Slots) :
    logFrom s steps = (history s steps).map Ran.entry := by
  induction steps generalizing s with
  | nil => rfl
  | cons step steps ih =>
      have hrun := exec_run step s []
      rw [Logged.exec] at hrun
      rw [logFrom, history, hrun]
      simp [ih, Ran.entry]

end Step

/-! ## What is handed out -/

/-- The names of the slots that were ever used. -/
def declared (s : Slots) : List String :=
  (List.range (s.highest + 1).toNat).map fun (i : Nat) => label i

/-- Whether the declaration of the slots has the name. -/
def Declares (s : Slots) (name : String) : Prop :=
  s.defines = "let " ++ ", ".intercalate s.declared ++ ";" ∧ name ∈ s.declared

/-- Whether the top is a slot that was used, or none. -/
structure Valid (s : Slots) : Prop where
  low : -1 ≤ s.top
  high : s.top ≤ s.highest

section Declared

variable {s t : Slots} {slot : Int} {name : String}

theorem label_mem_declared (hlow : 0 ≤ slot) (hhigh : slot ≤ s.highest) :
    label slot ∈ s.declared := by
  obtain ⟨i, rfl⟩ := Int.eq_ofNat_of_zero_le hlow
  exact List.mem_map.mpr ⟨i, List.mem_range.mpr (by omega), rfl⟩

theorem declared_subset (h : s.highest ≤ t.highest) : s.declared ⊆ t.declared :=
  List.map_subset _ (List.range_subset.mpr (by omega))

theorem Declares.of_mem (h : name ∈ s.declared) : s.Declares name := by
  refine ⟨?_, h⟩
  obtain ⟨i, hi, -⟩ := List.mem_map.mp h
  have hlow : ¬s.highest < 0 := by
    have hlt := List.mem_range.mp hi
    omega
  exact if_neg hlow

/-- What is used is declared from then on. -/
theorem Declares.mono (h : s.Declares name) (hle : s.highest ≤ t.highest) : t.Declares name :=
  .of_mem (declared_subset hle h.2)

theorem declares_label (hlow : 0 ≤ slot) (hhigh : slot ≤ s.highest) : s.Declares (label slot) :=
  .of_mem (label_mem_declared hlow hhigh)

end Declared

/-- Whether the answer to the step has the name of a slot. -/
def Ran.HandsOut (r : Ran) (name : String) : Prop :=
  match r.step, r.answer with
  | .push value, .ok (.text text) => text = name ++ " = " ++ value ++ ";"
  | .pop, .ok (.text text) => text = name
  | .popMany _, .ok (.names names) => name ∈ names
  | .top, .ok (.text text) => text = name
  | .index _, .ok (.text text) => text = name
  | .result, .ok (.text text) => text = name
  | _, _ => False

/-- Whether steps that run from one tracker to another use slots in order, and hand out the names of
these only. -/
structure Keeps (s : Slots) (ran : List Ran) (t : Slots) : Prop where
  valid : t.Valid
  le : s.highest ≤ t.highest
  between : ∀ r ∈ ran, s.highest ≤ r.after.highest ∧ r.after.highest ≤ t.highest
  sorted : ran.Pairwise fun a b => a.after.highest ≤ b.after.highest
  each : ∀ r ∈ ran, r.after.Valid ∧ ∀ name, r.HandsOut name → r.after.Declares name

namespace Keeps

variable {s t u : Slots} {ran more : List Ran} {step : Step} {answer : Except Fault Answer}

theorem nil (hs : s.Valid) : Keeps s [] s :=
  ⟨hs, Int.le_refl _, by simp, .nil, by simp⟩

/-- The top may be put back between two stretches. -/
theorem append {t' : Slots} (h : Keeps s ran t) (hmore : Keeps t' more u)
    (ht : t'.highest = t.highest) : Keeps s (ran ++ more) u where
  valid := hmore.valid
  le := Int.le_trans h.le (ht ▸ hmore.le)
  between := by
    have htu := ht ▸ hmore.le
    refine List.forall_mem_append.mpr ⟨fun r hr => ?_, fun r hr => ?_⟩
    · exact ⟨(h.between r hr).1, Int.le_trans (h.between r hr).2 htu⟩
    · exact ⟨Int.le_trans h.le (ht ▸ (hmore.between r hr).1), (hmore.between r hr).2⟩
  sorted := by
    refine List.pairwise_append.mpr ⟨h.sorted, hmore.sorted, fun a ha b hb => ?_⟩
    exact Int.le_trans (h.between a ha).2 (ht ▸ (hmore.between b hb).1)
  each := List.forall_mem_append.mpr ⟨h.each, hmore.each⟩

theorem single {before : Slots} (ht : t.Valid) (hle : s.highest ≤ t.highest)
    (hnames : ∀ name, (Ran.mk step before answer t).HandsOut name → t.Declares name) :
    Keeps s [⟨step, before, answer, t⟩] t where
  valid := ht
  le := hle
  between := by simp [hle]
  sorted := List.pairwise_singleton _ _
  each := by simpa using ⟨ht, hnames⟩

/-- What does not move the tracker. -/
theorem still (hs : s.Valid)
    (hnames : ∀ name, (Ran.mk step s answer s).HandsOut name → s.Declares name) :
    Keeps s [⟨step, s, answer, s⟩] s :=
  .single hs (Int.le_refl _) hnames

/-- A step with a block hands out nothing itself. -/
theorem around (h : Keeps s ran t) (hnames : ∀ name, ¬(Ran.mk step s answer t).HandsOut name) :
    Keeps s (ran ++ [⟨step, s, answer, t⟩]) t :=
  h.append (.single h.valid (Int.le_refl _) fun name hname => absurd hname (hnames name)) rfl

end Keeps

namespace Step

mutual
/-- The counts and offsets of a step and of those inside of it. -/
def words : Step → List UInt32
  | popMany n => [n]
  | index offset => [offset]
  | branch _ yes no => wordsOf yes ++ wordsOf no
  | loop _ body => wordsOf body
  | _ => []

def wordsOf : List Step → List UInt32
  | [] => []
  | step :: steps => words step ++ wordsOf steps
end

/-- Whether a step keeps the order of slots when it runs. -/
def RunsWell (step : Step) (s : Slots) : Prop :=
  let (inside, answer, t) := step.course s
  Keeps s (inside ++ [⟨step, s, answer, t⟩]) t

section Plain

variable {s : Slots}

theorem runsWell_push (value : String) (hs : s.Valid) : (push value).RunsWell s := by
  have hlow := hs.low
  have hhigh := hs.high
  simp only [RunsWell, course, Tracked.exec_map, exec_push value s hs.low, List.nil_append]
  refine .single ⟨?_, ?_⟩ ?_ fun name hname => ?_
  · dsimp only
    omega
  · exact Int.le_max_right _ _
  · exact Int.le_max_left _ _
  · -- the name is what stands in front of the assigned value
    have htext : label (s.top + 1) ++ " = " ++ value ++ ";" = name ++ " = " ++ value ++ ";" := hname
    simp only [String.append_assoc] at htext
    obtain rfl := (String.append_left_inj _).mp htext
    exact declares_label (by omega) (Int.le_max_right _ _)

theorem runsWell_pop (hs : s.Valid) : pop.RunsWell s := by
  have hlow := hs.low
  have hhigh := hs.high
  simp only [RunsWell, course, Tracked.exec_map, exec_pop, List.nil_append]
  by_cases h : s.top < 0
  · rw [if_pos h]
    exact .still hs nofun
  · rw [if_neg h]
    refine .single ⟨?_, ?_⟩ (Int.le_refl _) ?_
    · dsimp only
      omega
    · dsimp only
      omega
    · rintro _ rfl
      exact declares_label (by omega) hhigh

theorem runsWell_popMany {w : UInt32} (hw : w.toNat < signedSize) (hs : s.Valid) :
    (popMany w).RunsWell s := by
  have hlow := hs.low
  have hhigh := hs.high
  simp only [RunsWell, course, Tracked.exec_map, exec_popMany, signed_eq_toNat hw, List.nil_append]
  by_cases h : 0 < (w.toNat : Int) ∧ s.top - w.toNat + 1 < 0
  · rw [if_pos h]
    exact .still hs nofun
  · rw [if_neg h]
    refine .single ⟨?_, ?_⟩ (Int.le_refl _) fun name hname => ?_
    · dsimp only
      omega
    · dsimp only
      omega
    · obtain ⟨i, hi, rfl⟩ := List.mem_map.mp hname
      have hlt := List.mem_range.mp hi
      exact declares_label (by omega) (by dsimp only; omega)

theorem runsWell_top (hs : s.Valid) : top.RunsWell s := by
  simp only [RunsWell, course, Tracked.exec_map, exec_topName, List.nil_append]
  by_cases h : s.top < 0
  · rw [if_pos h]
    exact .still hs nofun
  · rw [if_neg h]
    refine .still hs ?_
    rintro _ rfl
    exact declares_label (by omega) hs.high

theorem runsWell_index {w : UInt32} (hw : w.toNat < signedSize) (hs : s.Valid) :
    (index w).RunsWell s := by
  have hhigh := hs.high
  simp only [RunsWell, course, Tracked.exec_map, exec_index, signed_eq_toNat hw, List.nil_append]
  by_cases h : s.top - w.toNat < 0
  · rw [if_pos h]
    exact .still hs nofun
  · rw [if_neg h]
    refine .still hs ?_
    rintro _ rfl
    exact declares_label (by omega) (by omega)

theorem runsWell_name (slot : Int) (hs : s.Valid) : (name slot).RunsWell s := by
  simp only [RunsWell, course, Tracked.exec_map, exec_name, List.nil_append]
  by_cases h : slot < 0
  · rw [if_pos h]
    exact .still hs nofun
  · rw [if_neg h]
    exact .still hs nofun

theorem runsWell_result (hs : s.Valid) : result.RunsWell s := by
  simp only [RunsWell, course, Tracked.exec_map, exec_result, List.nil_append]
  by_cases h : s.highest < 0
  · rw [if_pos h]
    exact .still hs nofun
  · rw [if_neg h]
    refine .still hs ?_
    rintro _ rfl
    exact declares_label (Int.le_refl 0) (by omega)

end Plain

mutual
theorem runsWell (step : Step) {s : Slots} (hs : s.Valid)
    (hwords : ∀ w ∈ step.words, w.toNat < signedSize) : step.RunsWell s := by
  cases step with
  | push value => exact runsWell_push value hs
  | pop => exact runsWell_pop hs
  | popMany w => exact runsWell_popMany (hwords w (List.mem_singleton_self w)) hs
  | top => exact runsWell_top hs
  | index w => exact runsWell_index (hwords w (List.mem_singleton_self w)) hs
  | name slot => exact runsWell_name slot hs
  | result => exact runsWell_result hs
  | defines => exact .still hs nofun
  | branch position yes no =>
      rw [words, List.forall_mem_append] at hwords
      have hyes := keeps_courseOf yes hs hwords.1
      rw [RunsWell, course]
      revert hyes
      rcases courseOf yes s with ⟨ran, fault | _, t⟩
      · exact fun hyes => hyes.around nofun
      intro hyes
      -- the second branch starts at the top of the first one, with the slots that it has used
      have hback : Valid { t with top := s.top } := ⟨hs.low, Int.le_trans hs.high hyes.le⟩
      have hno := keeps_courseOf no hback hwords.2
      revert hno
      dsimp only
      rcases courseOf no { t with top := s.top } with ⟨more, fault | _, u⟩
      · exact fun hno => (hyes.append hno rfl).around nofun
      · exact fun hno => (hyes.append hno rfl).around nofun
  | loop position body =>
      have hbody := keeps_courseOf body hs hwords
      rw [RunsWell, course]
      revert hbody
      rcases courseOf body s with ⟨ran, fault | _, t⟩
      · exact fun hbody => hbody.around nofun
      · exact fun hbody => hbody.around nofun

theorem keeps_courseOf (steps : List Step) {s : Slots} (hs : s.Valid)
    (hwords : ∀ w ∈ wordsOf steps, w.toNat < signedSize) :
    Keeps s (courseOf steps s).1 (courseOf steps s).2.2 := by
  cases steps with
  | nil => exact .nil hs
  | cons step steps =>
      rw [wordsOf, List.forall_mem_append] at hwords
      have hstep := runsWell step hs hwords.1
      rw [RunsWell] at hstep
      rw [courseOf]
      revert hstep
      rcases step.course s with ⟨inside, fault | answer, t⟩
      · exact id
      · intro hstep
        have hsteps := keeps_courseOf steps hstep.valid hwords.2
        dsimp only
        rw [List.append_cons]
        exact hstep.append hsteps rfl
end

/-- Every script keeps the order of slots when its words can be signed. -/
theorem exists_keeps_history (steps : List Step) {s : Slots} (hs : s.Valid)
    (hwords : ∀ w ∈ wordsOf steps, w.toNat < signedSize) : ∃ t, Keeps s (history s steps) t := by
  induction steps generalizing s with
  | nil => exact ⟨s, .nil hs⟩
  | cons step steps ih =>
      rw [wordsOf, List.forall_mem_append] at hwords
      have hstep := runsWell step hs hwords.1
      rw [RunsWell] at hstep
      obtain ⟨u, hsteps⟩ := ih hstep.valid hwords.2
      rw [history]
      dsimp only
      rw [List.append_cons]
      exact ⟨u, hstep.append hsteps rfl⟩

end Step

/-! ## Answers -/

/-- Whether what is known of the step that has run is what the step does. -/
def Ran.Told (r : Ran) : Prop :=
  (r.step.course r.before).2 = (r.answer, r.after)

namespace Step

/-- Whether the step asks for slots that are on the stack. -/
def reads : Step → Bool
  | pop | popMany _ | top | index _ => true
  | _ => false

mutual
theorem told_course (step : Step) (s : Slots) : ∀ r ∈ (step.course s).1, r.Told := by
  cases step with
  | branch position yes no =>
      have hyes := told_courseOf yes s
      rw [course]
      revert hyes
      rcases courseOf yes s with ⟨ran, fault | _, t⟩
      · exact id
      intro hyes
      have hno := told_courseOf no { t with top := s.top }
      revert hno
      dsimp only
      rcases courseOf no { t with top := s.top } with ⟨more, fault | _, u⟩
      · exact fun hno => List.forall_mem_append.mpr ⟨hyes, hno⟩
      · exact fun hno => List.forall_mem_append.mpr ⟨hyes, hno⟩
  | loop position body =>
      have hbody := told_courseOf body s
      rw [course]
      revert hbody
      rcases courseOf body s with ⟨ran, fault | _, t⟩
      · exact id
      · exact id
  | _ =>
      rw [course]
      exact List.forall_mem_nil _

theorem told_courseOf (steps : List Step) (s : Slots) : ∀ r ∈ (courseOf steps s).1, r.Told := by
  cases steps with
  | nil =>
      rw [courseOf]
      exact List.forall_mem_nil _
  | cons step steps =>
      have hinside := told_course step s
      have hself : Ran.Told ⟨step, s, (step.course s).2.1, (step.course s).2.2⟩ := rfl
      rw [courseOf]
      revert hinside hself
      rcases step.course s with ⟨inside, fault | answer, t⟩
      · exact fun hinside hself =>
          List.forall_mem_append.mpr ⟨hinside, List.forall_mem_singleton.mpr hself⟩
      · exact fun hinside hself => List.forall_mem_append.mpr
          ⟨hinside, List.forall_mem_cons.mpr ⟨hself, told_courseOf steps t⟩⟩
end

theorem told_history (steps : List Step) (s : Slots) : ∀ r ∈ history s steps, r.Told := by
  induction steps generalizing s with
  | nil => exact List.forall_mem_nil _
  | cons step steps ih =>
      rw [history]
      exact List.forall_mem_append.mpr
        ⟨told_course step s, List.forall_mem_cons.mpr ⟨rfl, ih _⟩⟩

theorem exec_eq_of_map_fault {α β : Type} {x : Tracked α} {f : α → β} {s t : Slots} {fault : Fault}
    (h : (f <$> x).exec s = (.error fault, t)) : x.exec s = (.error fault, t) := by
  rw [Tracked.exec_map] at h
  revert h
  rcases x.exec s with ⟨other | a, u⟩
  · intro h
    obtain ⟨hfault, rfl⟩ := Prod.mk.inj h
    rw [Except.error.inj hfault]
  · exact nofun

/-- What asks for slots that are not there leaves the tracker as it is. -/
theorem course_of_fault {step : Step} (hreads : step.reads) {s t : Slots} {fault : Fault}
    (h : (step.course s).2 = (.error fault, t)) : t = s := by
  cases step with
  | pop =>
      have hexec := (exec_pop s).symm.trans (exec_eq_of_map_fault h)
      split at hexec
      · exact (Prod.mk.inj hexec).2.symm
      · cases (Prod.mk.inj hexec).1
  | popMany w =>
      have hexec := (exec_popMany w s).symm.trans (exec_eq_of_map_fault h)
      split at hexec
      · exact (Prod.mk.inj hexec).2.symm
      · cases (Prod.mk.inj hexec).1
  | top =>
      have hexec := (exec_topName s).symm.trans (exec_eq_of_map_fault h)
      exact (Prod.mk.inj hexec).2.symm
  | index w =>
      have hexec := (exec_index w s).symm.trans (exec_eq_of_map_fault h)
      exact (Prod.mk.inj hexec).2.symm
  | _ => cases hreads

end Step

/-! ## Words that are too large -/

theorem signed_of_signedSize_le {w : UInt32} (h : signedSize ≤ w.toNat) :
    signed w = w.toNat - UInt32.size := by
  have hlarge : ¬2 * w.toNat < UInt32.size := by
    simp only [signedSize, UInt32.size] at h ⊢
    omega
  exact if_neg hlarge

theorem empty_valid : empty.Valid :=
  ⟨Int.le_refl _, Int.le_refl _⟩

/-- A count that is too large puts the top of an empty stack above all slots that were used. -/
theorem exists_above_highest {w : UInt32} (h : signedSize < w.toNat) :
    ∃ r ∈ Step.history .empty [.popMany w], r.after.highest < r.after.top := by
  have hlt := w.toNat_lt
  have hsigned := signed_of_signedSize_le (Nat.le_of_lt h)
  have hnone : ¬(0 < signed w ∧ empty.top - signed w + 1 < 0) := by
    simp only [hsigned, UInt32.size]
    omega
  -- the count is negative: there is no name to look up, and taking it away raises the top
  have hcount : (signed w).toNat = 0 := by
    simp only [hsigned, UInt32.size]
    omega
  have hcourse : (Step.popMany w).course .empty = ([], .ok (.names []), ⟨-1 - signed w, -1⟩) := by
    rw [Step.course, Tracked.exec_map, exec_popMany, if_neg hnone, hcount]
    rfl
  refine ⟨⟨.popMany w, .empty, .ok (.names []), ⟨-1 - signed w, -1⟩⟩, ?_, ?_⟩
  · simp [Step.history, hcourse]
  · simp only [hsigned, UInt32.size]
    omega

/-- An offset that is too large has an empty stack hand out a slot. -/
theorem exists_undeclared {w : UInt32} (h : signedSize ≤ w.toNat) :
    ∃ r ∈ Step.history .empty [.index w], ∃ name, r.HandsOut name ∧ ¬r.after.Declares name := by
  have hlt := w.toNat_lt
  have hsigned := signed_of_signedSize_le h
  have hcourse : (Step.index w).course .empty =
      ([], .ok (.text (label (-1 - signed w))), .empty) := by
    have hsome : ¬empty.top - signed w < 0 := by
      simp only [hsigned, UInt32.size, empty]
      omega
    rw [Step.course, Tracked.exec_map, exec_index, if_neg hsome]
    rfl
  refine ⟨⟨.index w, .empty, .ok (.text (label (-1 - signed w))), .empty⟩, ?_, _, rfl, ?_⟩
  · simp [Step.history, hcourse]
  · exact fun hdeclares => absurd hdeclares.2 (List.not_mem_nil)

/-- The top of a tracker stays among the slots that were used, every name is declared from when it
is handed out, and what fails to find its slots changes nothing, as long as no count or offset is
taken for a negative number; each one that is makes an empty stack go wrong. -/
theorem handed_out_declared (steps : List Step) :
    Step.logFrom .empty steps = (Step.history .empty steps).map Ran.entry ∧
    (∀ r ∈ Step.history .empty steps, r.step.reads → ∀ fault, r.answer = .error fault →
      r.after = r.before) ∧
    (∀ r ∈ Step.history .empty steps, r.step = .defines →
      r.answer = .ok (.text r.after.defines)) ∧
    ((∀ w ∈ Step.wordsOf steps, w.toNat < signedSize) →
      (∀ r ∈ Step.history .empty steps, -1 ≤ r.after.top ∧ r.after.top ≤ r.after.highest ∧
        ∀ name, r.HandsOut name → r.after.Declares name) ∧
      (Step.history .empty steps).Pairwise fun a b =>
        ∀ name, a.HandsOut name → b.after.Declares name) ∧
    (∀ w : UInt32, signedSize < w.toNat →
      ∃ r ∈ Step.history .empty [.popMany w], r.after.highest < r.after.top) ∧
    ∀ w : UInt32, signedSize ≤ w.toNat →
      ∃ r ∈ Step.history .empty [.index w], ∃ name, r.HandsOut name ∧ ¬r.after.Declares name := by
  refine ⟨Step.logFrom_eq steps .empty, ?_, ?_, fun hwords => ?_, fun w => exists_above_highest,
    fun w => exists_undeclared⟩
  · intro r hr hreads fault hfault
    have htold := Step.told_history steps .empty r hr
    rw [Ran.Told, hfault] at htold
    exact Step.course_of_fault hreads htold
  · intro r hr hdefines
    have htold := Step.told_history steps .empty r hr
    rw [Ran.Told, hdefines, Step.course, Prod.mk.injEq] at htold
    rw [← htold.1, ← htold.2]
  · obtain ⟨t, hkeeps⟩ := Step.exists_keeps_history steps empty_valid hwords
    refine ⟨fun r hr => ?_, ?_⟩
    · obtain ⟨hvalid, hnames⟩ := hkeeps.each r hr
      exact ⟨hvalid.low, hvalid.high, hnames⟩
    · refine hkeeps.sorted.imp_of_mem fun {a b} ha hb hle name hname => ?_
      exact ((hkeeps.each a ha).2 name hname).mono hle

/-- A condition of which one branch uses more slots than the other, and a count that is too large
for what is left. -/
def unevenUse : List Step :=
  [.push "curr_pos", .branch 7 [.pop, .push "1"] [.push "2", .popMany 1], .index 0, .popMany 2,
    .defines]

theorem unevenUse_declared :
    (∀ w ∈ Step.wordsOf unevenUse, w.toNat < signedSize) ∧
    (Step.logFrom .empty unevenUse).map (fun e => (e.after.top, e.after.highest)) =
      [(0, 0), (-1, 0), (0, 0), (1, 1), (0, 1), (0, 1), (0, 1), (0, 1), (0, 1)] ∧
    (∀ r ∈ Step.history .empty unevenUse, -1 ≤ r.after.top ∧ r.after.top ≤ r.after.highest ∧
      ∀ name, r.HandsOut name → r.after.Declares name) ∧
    (Step.history .empty unevenUse).Pairwise fun a b =>
      ∀ name, a.HandsOut name → b.after.Declares name := by
  have hlist : Step.wordsOf unevenUse = [1, 0, 2] := rfl
  have hwords : ∀ w ∈ Step.wordsOf unevenUse, w.toNat < signedSize := by
    simp only [hlist, List.forall_mem_cons]
    exact ⟨by decide, by decide, by decide, List.forall_mem_nil _⟩
  exact ⟨hwords, rfl, (handed_out_declared unevenUse).2.2.2.1 hwords⟩

/-- A count of all ones is taken for `-1`: the top goes up to a slot that was never used. -/
theorem large_count_raises_top :
    ((Step.logFrom .empty [.popMany 4294967295]).map fun e => (e.after.top, e.after.highest)) =
      [(0, -1)] ∧
    ¬∀ steps, ∀ e ∈ Step.logFrom .empty steps,
      -1 ≤ e.after.top ∧ e.after.top ≤ e.after.highest := by
  have hlog : Step.logFrom .empty [.popMany 4294967295] = [⟨.ok (.names []), ⟨0, -1⟩⟩] := rfl
  refine ⟨by rw [hlog]; rfl, fun h => ?_⟩
  have hbounds := h [.popMany 4294967295] ⟨.ok (.names []), ⟨0, -1⟩⟩ (by simp [hlog])
  exact absurd hbounds.2 (by decide)

end Slots

end PegCompiler
