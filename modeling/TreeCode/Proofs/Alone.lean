import TreeCode.Machine.Run
import TreeCode.Proofs.Matching

/-!
# The host alone

A job that calls no function and has no stream to work on needs no machine: it comes to `Job.alone`.

Matching with a schema that is plain data asks for nothing at all but to call conditions that are no
functions (`Job.Idle`). A machine that performs such a job is left as it was
(`Machine.perform_idle`).
-/

namespace TreeCode

/-- What answers a request where no function is called and there is no stream. -/
def Request.alone : (q : Request) → q.Response
  | .call f _ _ => .error (Machine.notCallable f)
  | .force _ => .ok .empty
  | .collect _ => .ok []
  | .settle _ => .ok ()
  | .allocate _ => (0 : Nat)
  | .text value => value.text {}

/-- What a job comes to that calls no function and uses no stream. -/
def Job.alone {α : Type} : Job α → Except ErrorValue α
  | .done r => r
  | .ask _ q next => (next q.alone).alone

/-! ## What jobs come to -/

variable {α β : Type}

namespace Job

lemma alone_andThen (job : Job α) (f : Except ErrorValue α → Job β) :
    (job.andThen f).alone = (f job.alone).alone := by
  induction job with
  | done r => rfl
  | ask held q next ih => exact ih q.alone

lemma alone_bind (job : Job α) (f : α → Job β) : (job >>= f).alone = match job.alone with
      | .ok a => (f a).alone
      | .error e => .error e := by
  refine (alone_andThen job _).trans ?_
  cases job.alone <;> rfl

lemma alone_mapError (job : Job α) (f : ErrorValue → ErrorValue) :
    (job.mapError f).alone = match job.alone with
      | .ok a => .ok a
      | .error e => .error (f e) := by
  refine (alone_andThen job _).trans ?_
  cases job.alone <;> rfl

lemma alone_holding (job : Job α) (values) : (job.holding values).alone = job.alone := by
  induction job with
  | done r => rfl
  | ask held q next ih => exact ih q.alone

end Job
/-! ## Jobs that call no function -/

/-- The request is to call what is no function. -/
def Request.Idle (q : Request) : Prop :=
  ∃ f args named, q = .call f args named ∧ f.functionName? = none

namespace Job

/-- **What a job asks for**: all its requests satisfy `P`, whatever they are answered. -/
inductive Asks (P : Request → Prop) : Job α → Prop where
  | done (result : Except ErrorValue α) : Asks P (.done result)
  | ask {held request next}
      (allowed : P request) (h : ∀ x, Asks P (next x)) : Asks P (.ask held request next)

variable {P : Request → Prop}

lemma asks_pure (a : α) : Asks P (pure a) := .done _

lemma asks_fail (e) : Asks P (Job.fail e : Job α) := .done _

variable {j : Job α}

lemma Asks.andThen (hj : j.Asks P) {f : Except ErrorValue α → Job β}
    (hf : ∀ x, (f x).Asks P) : (j.andThen f).Asks P := by
  induction hj with
  | done r => exact hf r
  | ask allowed _ ih => exact .ask allowed ih

lemma Asks.bind (hj : j.Asks P) {f : α → Job β} (hf : ∀ a, (f a).Asks P) : (j >>= f).Asks P := by
  refine hj.andThen fun x => ?_
  cases x with
  | ok a => exact hf a
  | error e => exact asks_fail e

lemma Asks.mapError (hj : j.Asks P) (f : ErrorValue → ErrorValue) : (j.mapError f).Asks P := by
  refine hj.andThen fun x => ?_
  cases x with
  | ok a => exact asks_pure a
  | error e => exact asks_fail _

lemma Asks.holding (hj : j.Asks P) (values) : (j.holding values).Asks P := by
  induction hj with
  | done r => exact .done r
  | ask allowed _ ih => exact .ask allowed ih

/-- **A job that only tries to call what is no function.** -/
abbrev Idle (j : Job α) : Prop := j.Asks Request.Idle

end Job

/-! ### Schemas -/

/-- No functions and no streams: what is alike to itself is plain data, or an error. -/
def Likeness.none : Likeness where
  closures _ _ := False
  natives _ _ := False
  streams := False
  requests _ := False
  same := False.elim
  told := False.elim

/-- Every value is alike to itself, and only requests that satisfy `P` may be made. -/
def Likeness.asking (P : Request → Prop) : Likeness :=
  { Likeness.diagonal fun _ => True with requests := P }

/-- What corresponds by one likeness corresponds by the other. -/
structure Likeness.Within (q r : Likeness) : Prop where
  closures : ∀ c d, q.closures c d → r.closures c d
  natives : ∀ a b, q.natives a b → r.natives a b
  streams : q.streams → r.streams

variable {q r : Likeness}

mutual
lemma Value.Alike.mono (hqr : q.Within r) : ∀ (v : Value) {w}, v.Alike q w → v.Alike r w
  | .array xs, _, h => by
    obtain ⟨ys, rfl, hall⟩ := Value.alike_array.mp h
    exact .array (all_mono hqr xs hall)
  | .object xs, _, h => by
    obtain ⟨ys, rfl, hall⟩ := Value.alike_object.mp h
    exact .object (entries_mono hqr xs hall)
  | .error _ xs _, _, h => by
    obtain ⟨ys, rfl, hall⟩ := Value.alike_error.mp h
    exact Value.alike_error.mpr ⟨ys, rfl, entries_mono hqr xs hall⟩
  | .closure _, _, ⟨d, hd, h⟩ => ⟨d, hd, hqr.closures _ _ h⟩
  | .native _, _, ⟨b, hb, h⟩ => ⟨b, hb, hqr.natives _ _ h⟩
  | .stream _, _, ⟨hw, h⟩ => ⟨hw, hqr.streams h⟩
  | .null, _, h | .boolean _, _, h | .number _, _, h | .string _, _, h => h
lemma all_mono (hqr : q.Within r) : ∀ xs {ys}, q.All xs ys → r.All xs ys
  | [], _, .nil => .nil
  | x :: xs, _, .cons h hxs => .cons (.mono hqr x h) (all_mono hqr xs hxs)
lemma entries_mono (hqr : q.Within r) : ∀ (xs)
    {ys}, q.Entries xs ys → r.Entries xs ys
  | [], _, h => by
    rw [List.forall₂_nil_left_iff.mp h]
    exact .nil
  | (_, x) :: xs, _, h => by
    obtain ⟨y, rest, hxy, hr, rfl⟩ := List.forall₂_cons_left_iff.mp h
    exact List.Forall₂.cons ⟨hxy.1, .mono hqr x hxy.2⟩ (entries_mono hqr xs hr)
end

lemma Value.alike_asking {P} (v : Value) : v.Alike (.asking P) v := by
  have h : (Likeness.diagonal fun _ => True).Within (.asking P) :=
    ⟨fun _ _ => id, fun _ _ => id, id⟩
  exact .mono h v (Value.alike_diagonal.mpr ⟨rfl, fun _ _ => trivial⟩)

lemma Schema.serves_idle : Schema.Serves .none (.asking Request.Idle) := by
  intro v w h
  refine ⟨.mono ⟨fun _ _ => False.elim, fun _ _ => False.elim, False.elim⟩ v h,
    fun x => ⟨v, [x], [], rfl, ?_⟩⟩
  cases h.form with
  | closure hcd => exact hcd.elim
  | native hab => exact hab.elim
  | _ => rfl

/-- **A job that is alike to another asks for what may be asked**, if that is to call functions. -/
theorem Job.Alike.asks {P : Request → Prop} {Q : α → β → Prop} {j k}
    (hP : ∀ q, P q → ∃ f args named, q = .call f args named)
    (h : Job.Alike (.asking P) Q j k) : j.Asks P := by
  induction h with
  | done _ => exact .done _
  | ask _ allowed q _ ih =>
    obtain ⟨f, args, named, rfl⟩ := hP _ allowed
    cases q with
    | call =>
      refine .ask allowed fun x => ih x x ?_
      cases x with
      | ok v => exact .ok v.alike_asking
      | error e =>
        obtain ⟨os, heq, hes⟩ := Value.alike_error.mp e.toValue.alike_asking
        cases heq
        exact .error ⟨rfl, hes, rfl⟩

/-- **Matching calls no function**, if the schema has none. -/
theorem Schema.idle_validate (v : Value) {schema} (h : schema.isData = true) :
    (validate v schema).Idle := by
  have hmatch := bindInto_alike _ (ofValue_alike serves_idle schema
    (Value.alike_of_isData schema h))
    v.alike_asking .nil
  refine (hmatch.asks ?_).bind fun _ => Job.asks_pure ()
  rintro q ⟨f, args, named, heq, -⟩
  exact ⟨f, args, named, heq⟩

/-! ## Performing a job -/

namespace Machine

variable (S : Setting)

lemma respond_call {f} (h : f.functionName? = none) (args named m) : ∀ fuel, 2 ≤ fuel →
      respond S fuel (.call f args named) m = some (.error (notCallable f), m) := by
  intro fuel hfuel
  obtain ⟨fuel, rfl⟩ := Nat.exists_eq_add_of_le' hfuel
  show apply S (fuel + 1) f args named m = _
  cases f with
  | closure c => cases h
  | native ref => cases h
  | _ => rfl

variable {purpose : Purpose}

/-- A request and then the rest of the job leave the machine as it was. -/
lemma perform_ask {held q next m} (hf : ∃ least, ∀ fuel, least ≤ fuel →
      respond S fuel q (m.holding (held ++ m.held))
        = some (q.alone, m.holding (held ++ m.held))) (hsecond : ∃ least, ∀ fuel, least ≤ fuel →
      perform S fuel purpose (next q.alone) m = some ((next q.alone).alone, m)) :
    ∃ least, ∀ fuel, least ≤ fuel → perform S fuel purpose (.ask held q next) m
      = some ((next q.alone).alone, m) := by
  obtain ⟨first, hf⟩ := hf
  obtain ⟨second, hsecond⟩ := hsecond
  refine ⟨first + second + 1, fun fuel hfuel => ?_⟩
  obtain ⟨fuel, rfl⟩ : ∃ k, fuel = k + 1 := ⟨fuel - 1, by omega⟩
  rw [perform, hf fuel (by omega)]
  exact hsecond fuel (by omega)

lemma perform_done (r m) :
    ∃ least, ∀ fuel, least ≤ fuel → perform S fuel purpose (.done r) m = some (r, m) := by
  refine ⟨1, fun fuel hfuel => ?_⟩
  obtain ⟨fuel, rfl⟩ := Nat.exists_eq_add_of_le' hfuel
  rfl

/-- **A job that only tries to call what is no function** leaves the machine as it was. -/
theorem perform_idle {job} (h : job.Idle) (m) :
    ∃ least, ∀ fuel, least ≤ fuel → perform S fuel purpose job m = some (job.alone, m) := by
  induction h with
  | done r => exact perform_done S r m
  | ask allowed _ ih =>
    obtain ⟨f, args, named, rfl, hf⟩ := allowed
    exact perform_ask S ⟨2, respond_call S hf args named _⟩ (ih _)

end Machine

end TreeCode
