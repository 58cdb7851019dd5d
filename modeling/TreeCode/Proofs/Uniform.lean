import TreeCode.Builtin
import TreeCode.Proofs.Renaming

/-!
# Host functions do not tell instances apart

Matching looks at an instance of a host function by equality only. So it commutes with renaming
instances (`Renaming.bindValue_job`), and so do the binding of arguments, indexing, and the host
functions of the standard library (`Host.standard_uniform`).
-/

namespace TreeCode

/-! ## Schemas and collections -/

namespace Renaming

variable (ρ : Renaming)

/-- **Matching commutes with renaming.** -/
theorem bindValue_job (v schema) :
    Schema.bindValue (ρ.value v) (ρ.value schema) = ρ.job ρ.entries (Schema.bindValue v schema) :=
  ρ.eq_job (fun es _ => (entries_iff es).mp)
    (Schema.bindValue_alike (fun _ => trivial) (alike_value schema) (alike_value v))

lemma validate_job (v schema) :
    Schema.validate (ρ.value v) (ρ.value schema) = ρ.job id (Schema.validate v schema) :=
  bind_job (ρ.bindValue_job v schema) fun _ => rfl

lemma accepts_job (v schema) :
    Schema.accepts (ρ.value v) (ρ.value schema) = ρ.job id (Schema.accepts v schema) := by
  refine andThen_job (ρ.bindValue_job v schema) fun r => ?_
  cases r with
  | ok bs => rfl
  | error e =>
    show (if e.isMismatch then Job.pure false else Job.fail (ρ.error e))
      = ρ.job id (if e.isMismatch then Job.pure false else Job.fail e)
    split <;> rfl

/-- **Indexing commutes with renaming.** -/
theorem index_job (coll key : Value) :
    (ρ.value coll).index (ρ.value key) = ρ.job ρ.value (coll.index key) :=
  ρ.eq_job (fun _ _ h => alike_iff.mp h)
    (Value.index_alike (fun _ => trivial) (alike_value coll) (alike_value key))

end Renaming

/-! ## Parameters -/

/-- The schema of a parameter and its default are data. -/
def Param.isData (p : Param) : Bool := p.schema.isData && p.default.all Value.isData

def Params.isData (params : Params) : Bool :=
  params.positional.all Param.isData && params.rest.all Param.isData
    && params.named.all Param.isData && params.namedRest.all Param.isData

lemma Param.plain_of_isData {r} {p : Param} (h : p.isData = true) : p.Plain r := by
  obtain ⟨hs, hdef⟩ := Bool.and_eq_true_iff.mp h
  refine ⟨Value.alike_of_isData p.schema hs, fun v hv => ?_⟩
  rw [hv] at hdef
  exact Value.alike_of_isData v hdef

lemma Params.plain_of_isData {r} {params : Params} (h : params.isData = true) :
    params.Plain r := by
  simp only [Params.isData, Bool.and_eq_true, List.all_eq_true, Option.all_eq_true] at h
  obtain ⟨⟨⟨hpos, hr⟩, hn⟩, hnamedRest⟩ := h
  exact ⟨fun p hp => Param.plain_of_isData (hpos p hp),
    fun p hp => Param.plain_of_isData (hr p hp), fun p hp => Param.plain_of_isData (hn p hp),
    fun p hp => Param.plain_of_isData (hnamedRest p hp)⟩

/-- **Binding arguments commutes with renaming.** -/
theorem Renaming.bindArguments_job (ρ : Renaming) {params : Params} (h : params.isData = true)
    (args : List Value) (named) :
    params.bindArguments (args.map ρ.value) (ρ.entries named)
      = ρ.job ρ.entries (params.bindArguments args named) :=
  ρ.eq_job (fun es _ => (entries_iff es).mp) (Params.bindArguments_alike (fun _ => trivial)
    (Params.plain_of_isData h) (all_map args) (alike_entries named))

/-- **A host function does not tell instances apart**: renamed arguments give the renamed result. -/
def Native.Uniform (n : Native) : Prop :=
  ∀ (ρ : Renaming) (args : List Value) (named : Entries Value),
    n.apply (args.map ρ.value) (ρ.entries named) = ρ.job ρ.value (n.apply args named)

/-- Every function of the host is uniform. -/
def Host.Uniform (host : Host) : Prop := ∀ code n, host.native? code = some n → n.Uniform

lemma Native.uniform_of_body {n : Native} (hps : n.params.isData = true)
    (hbody : ∀ (ρ : Renaming) (b), n.body (ρ.entries b) = ρ.job ρ.value (n.body b)) :
    n.Uniform := fun ρ args named =>
  Renaming.bind_job (ρ.bindArguments_job hps args named) fun b =>
    Renaming.holding_job (hbody ρ b) rfl

/-! ## The standard library -/

namespace Builtin

open Renaming

variable (ρ : Renaming)

section Arguments

variable (b : Entries Value) (name : String) (v : Value)

lemma arg_job : arg (ρ.entries b) name = ρ.job ρ.value (arg b name) := by
  rw [arg, get?_entries, arg]
  cases Entries.get? b name <;> rfl

lemma asNumber_job : asNumber (ρ.value v) = ρ.job id (asNumber v) := by cases v <;> rfl

lemma asBoolean_job : asBoolean (ρ.value v) = ρ.job id (asBoolean v) := by cases v <;> rfl

lemma asString_job : asString (ρ.value v) = ρ.job id (asString v) := by cases v <;> rfl

lemma asArray_job : asArray (ρ.value v) = ρ.job (List.map ρ.value) (asArray v) := by
  cases v with
  | array es =>
    rw [value_array]
    rfl
  | _ => rfl

lemma asObject_job : asObject (ρ.value v) = ρ.job ρ.entries (asObject v) := by cases v <;> rfl

lemma number_job : number (ρ.entries b) name = ρ.job id (number b name) :=
  bind_job (arg_job ρ b name) fun v => asNumber_job ρ v

lemma numbers_job : numbers (ρ.entries b) name = ρ.job id (numbers b name) :=
  bind_job (arg_job ρ b name) fun v => bind_job (asArray_job ρ v) fun _ =>
    (mapM_job (asNumber_job ρ)).trans (by rw [List.map_id_fun])

end Arguments

section Bodies

variable (b : Entries Value)

lemma plus_job : plus.body (ρ.entries b) = ρ.job ρ.value (plus.body b) :=
  bind_job (numbers_job ρ b "numbers") fun _ => rfl

lemma minus_job : minus.body (ρ.entries b) = ρ.job ρ.value (minus.body b) :=
  bind_job (number_job ρ b "a") fun _ => bind_job (number_job ρ b "b") fun _ => rfl

lemma times_job : times.body (ρ.entries b) = ρ.job ρ.value (times.body b) :=
  bind_job (numbers_job ρ b "numbers") fun _ => rfl

lemma dividedBy_job : dividedBy.body (ρ.entries b) = ρ.job ρ.value (dividedBy.body b) :=
  bind_job (number_job ρ b "dividend") fun dividend =>
    bind_job (number_job ρ b "divisor") fun divisor => by
      simp only [id_eq]
      split <;> rfl

lemma negative_job : negative.body (ρ.entries b) = ρ.job ρ.value (negative.body b) :=
  bind_job (number_job ρ b "x") fun _ => rfl

lemma equals_job : equals.body (ρ.entries b) = ρ.job ρ.value (equals.body b) :=
  bind_job (arg_job ρ b "a") fun x => bind_job (arg_job ρ b "b") fun y =>
    congrArg (fun t => Job.pure (Value.boolean t)) (ρ.equals_value x y)

lemma isLessThan_job : isLessThan.body (ρ.entries b) = ρ.job ρ.value (isLessThan.body b) :=
  bind_job (arg_job ρ b "a") fun x => bind_job (arg_job ρ b "b") fun y => by
    cases x <;> cases y <;> rfl

lemma not_job : not.body (ρ.entries b) = ρ.job ρ.value (not.body b) :=
  bind_job (arg_job ρ b "x") fun v => bind_job (asBoolean_job ρ v) fun _ => rfl

lemma ifThenElse_job : ifThenElse.body (ρ.entries b) = ρ.job ρ.value (ifThenElse.body b) :=
  bind_job (arg_job ρ b "condition") fun v => bind_job (asBoolean_job ρ v) fun _ =>
    bind_job (arg_job ρ b _) fun branch => ρ.invoke_job branch [] []

lemma typeOf_job : typeOf.body (ρ.entries b) = ρ.job ρ.value (typeOf.body b) :=
  bind_job (arg_job ρ b "value") fun v =>
    congrArg (fun kind : Kind => Job.pure (Value.string kind.name)) (ρ.kind_value v)

lemma test_job {accepts} (h : ∀ v, accepts (ρ.value v) = accepts v) :
    (test accepts).body (ρ.entries b) = ρ.job ρ.value ((test accepts).body b) :=
  bind_job (arg_job ρ b "value") fun v => congrArg (fun t => Job.pure (Value.boolean t)) (h v)

lemma length_job : length.body (ρ.entries b) = ρ.job ρ.value (length.body b) :=
  bind_job (arg_job ρ b "sequence") fun v => bind_job (ρ.elements_value v) fun _ =>
    congrArg (fun n => Job.pure (Value.ofNat n)) (List.length_map ρ.value)

lemma join_job : join.body (ρ.entries b) = ρ.job ρ.value (join.body b) :=
  bind_job (arg_job ρ b "strings") fun strings => bind_job (arg_job ρ b "on") fun on =>
    bind_job (asString_job ρ on) fun separator => bind_job (asArray_job ρ strings) fun _ =>
      bind_job (mapM_job (asString_job ρ)) fun texts =>
        congrArg (fun ts => Job.pure (Value.string (separator.intercalate ts))) (List.map_id texts)

lemma toText_job : toText.body (ρ.entries b) = ρ.job ρ.value (toText.body b) :=
  bind_job (arg_job ρ b "value") fun v => by
    have hshown : (do Job.settle (ρ.value v); return .string (← Job.text (ρ.value v)) : Job Value)
        = ρ.job ρ.value (do Job.settle v; return .string (← Job.text v)) :=
      bind_job (ρ.settle_job v) fun _ => bind_job (ρ.text_job v) fun _ => rfl
    cases v with
    | string s => rfl
    | _ => exact hshown

lemma toArray_job : toArray.body (ρ.entries b) = ρ.job ρ.value (toArray.body b) :=
  bind_job (arg_job ρ b "sequence") fun v => bind_job (ρ.elements_value v) fun es =>
    congrArg Job.pure (ρ.value_array es).symm

lemma build_job : build.body (ρ.entries b) = ρ.job ρ.value (build.body b) :=
  bind_job (arg_job ρ b "start") fun start => bind_job (arg_job ρ b "next") fun next =>
    bind_job (ρ.suspend_job (.successors start next)) fun tail =>
      bind_job (ρ.resolved_job (.cons start tail)) fun _ => rfl

lemma applyToEach_job (f) (es out : List Value) :
    applyToEach (ρ.value f) (out.map ρ.value) (es.map ρ.value)
      = ρ.job (List.map ρ.value) (applyToEach f out es) := by
  induction es generalizing out with
  | nil => exact congrArg Job.pure List.map_reverse.symm
  | cons e es ih =>
    exact bind_job (holding_job (ρ.invoke_job f [e] []) (by simp)) fun v => ih (v :: out)

lemma map_job : map.body (ρ.entries b) = ρ.job ρ.value (map.body b) :=
  bind_job (arg_job ρ b "f") fun f => bind_job (arg_job ρ b "sequence") fun v => by
    have hmapped : ((ρ.value v).elements >>= fun es =>
          applyToEach (ρ.value f) [] es >>= fun out => pure (.array out))
        = ρ.job ρ.value (v.elements >>= fun es =>
          applyToEach f [] es >>= fun out => pure (.array out)) :=
      bind_job (ρ.elements_value v) fun es => bind_job (applyToEach_job ρ f es []) fun out =>
        congrArg Job.pure (ρ.value_array out).symm
    cases v with
    | stream id => exact bind_job (ρ.suspend_job (.mapped id f)) fun _ => rfl
    | _ => exact hmapped

lemma keep_job (c) (es out : List Value) :
    keep (ρ.value c) (out.map ρ.value) (es.map ρ.value)
      = ρ.job (List.map ρ.value) (keep c out es) := by
  induction es generalizing out with
  | nil => exact congrArg Job.pure List.map_reverse.symm
  | cons e es ih =>
    refine bind_job (ρ.invoke_job c [e] []) fun v => bind_job (asBoolean_job ρ v) fun kept => ?_
    cases kept with
    | true => exact ih (e :: out)
    | false => exact ih out

lemma filter_job : filter.body (ρ.entries b) = ρ.job ρ.value (filter.body b) :=
  bind_job (arg_job ρ b "condition") fun c => bind_job (arg_job ρ b "sequence") fun v => by
    have hfiltered : ((ρ.value v).elements >>= fun es =>
          keep (ρ.value c) [] es >>= fun out => pure (.array out))
        = ρ.job ρ.value (v.elements >>= fun es => keep c [] es >>= fun out => pure (.array out)) :=
      bind_job (ρ.elements_value v) fun es => bind_job (keep_job ρ c es []) fun out =>
        congrArg Job.pure (ρ.value_array out).symm
    cases v with
    | stream id => exact bind_job (ρ.suspend_job (.filtered id c)) fun _ => rfl
    | _ => exact hfiltered

lemma keepFirst_job : keepFirst.body (ρ.entries b) = ρ.job ρ.value (keepFirst.body b) :=
  bind_job (number_job ρ b "n") fun n => bind_job (arg_job ρ b "sequence") fun v => by
    have hk : ((ρ.value v).elements >>= fun es => pure (.array (es.take n.toCount)))
        = ρ.job ρ.value (v.elements >>= fun es => pure (.array (es.take n.toCount))) :=
      bind_job (ρ.elements_value v) fun es => congrArg Job.pure (by simp [List.map_take])
    cases v with
    | stream id =>
      exact bind_job (ρ.takeAfter_job n.toCount id []) fun es =>
        congrArg Job.pure (ρ.value_array es).symm
    | _ => exact hk

lemma error_job : error.body (ρ.entries b) = ρ.job ρ.value (error.body b) :=
  bind_job (arg_job ρ b "kind") fun kind => bind_job (asString_job ρ kind) fun _ =>
    bind_job (arg_job ρ b "details") fun details => bind_job (asObject_job ρ details) fun _ => rfl

lemma validate_job : validate.body (ρ.entries b) = ρ.job ρ.value (validate.body b) :=
  bind_job (arg_job ρ b "value") fun v => bind_job (arg_job ρ b "schema") fun schema =>
    bind_job (ρ.validate_job v schema) fun _ => rfl

lemma accepts_job : accepts.body (ρ.entries b) = ρ.job ρ.value (accepts.body b) :=
  bind_job (arg_job ρ b "value") fun v => bind_job (arg_job ρ b "schema") fun schema =>
    bind_job (ρ.accepts_job v schema) fun _ => rfl

end Bodies

lemma natives_isData : ∀ n ∈ natives, n.2.params.isData = true := by decide

/-- The body of every function of the table commutes with renaming. -/
lemma natives_job : ∀ n ∈ natives, ∀ (ρ : Renaming) (b),
    n.2.body (ρ.entries b) = ρ.job ρ.value (n.2.body b) := by
  have hkind : ∀ (kind : Kind) (ρ : Renaming) (b : Entries Value),
      (isKind kind).body (ρ.entries b) = ρ.job ρ.value ((isKind kind).body b) :=
    fun kind ρ b => test_job ρ b fun v => congrArg (· == kind) (ρ.kind_value v)
  simp only [natives, List.forall_mem_cons, List.not_mem_nil, false_imp_iff, implies_true, and_true]
  exact ⟨plus_job, minus_job, times_job, dividedBy_job, negative_job, equals_job, isLessThan_job,
    not_job, ifThenElse_job, typeOf_job, hkind _, hkind _, hkind _, hkind _, hkind _, hkind _,
    hkind _, hkind _, fun ρ b => test_job ρ b ρ.isSequence_value, length_job, join_job, toText_job,
    toArray_job, build_job, map_job, filter_job, keepFirst_job, error_job, validate_job,
      accepts_job⟩

end Builtin

/-- **The functions of the standard library do not tell instances apart.** -/
theorem Host.standard_uniform : Host.standard.Uniform := by
  intro code n hn
  have hmem : n ∈ Builtin.natives.map (·.2) := by
    obtain ⟨hlt, heq⟩ := Array.getElem?_eq_some_iff.mp hn
    rw [← heq]
    exact Array.mem_def.mp (Array.getElem_mem hlt)
  obtain ⟨entry, he, rfl⟩ := List.mem_map.mp hmem
  exact Native.uniform_of_body (Builtin.natives_isData entry he) (Builtin.natives_job entry he)

end TreeCode
