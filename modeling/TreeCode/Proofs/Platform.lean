import TreeCode.Proofs.Growth
import TreeCode.Proofs.RoundTrip

/-!
# The values of the host in a program

A value that is not data goes into a table of the program, under the name by which the tree refers
to it. What is in the table of a lowered program was provided under that name, no value is there
twice under one name, and no constant has a key twice (`Expr.lower_tables`).
-/

namespace TreeCode

/-- **Plain data**: data in which no object has a key twice. -/
def Value.isPlain (v : Value) : Bool := v.isData && v.keysDistinct

/-- What the host may provide under a name: plain data, or a value with the property. -/
def Value.Provided (Q : String → Value → Prop) (name : String) (v : Value) : Prop :=
  v.isPlain = true ∨ v.isData = false ∧ Q name v

/-- **The values that an environment provides.** What is written in the library is plain data. -/
structure Environment.Provides (Q : String → Value → Prop) (env : Environment) : Prop where
  names : ∀ name value, Entries.get? env.names name = some value → value.Provided Q name
  modules : ∀ module exports name value, Entries.get? env.modules module = some exports →
    Entries.get? exports name = some value → value.Provided Q name
  library : ∀ name value, Entries.get? env.library name = some (.value value) →
    value.Provided Q name
  sources : ∀ name e, (name, .source e) ∈ env.library → ∀ v ∈ e.values, v.isPlain = true

/-- **What tables of constants and of host values hold**: no key twice, what was provided, and
nothing twice. -/
structure Supplied (Q : String → Value → Prop) (ks : List Value)
    (platform : List PlatformValue) : Prop where
  keys : ∀ v ∈ ks, v.keysDistinct = true
  provided : ∀ entry ∈ platform, Q entry.name entry.value
  distinct : platform.Pairwise fun x y => x.name = y.name → x.value.equals y.value = false

variable {v : Value} {Q : String → Value → Prop} {env : Environment}

namespace Supplied

variable {ks : List Value} {platform : List PlatformValue}

lemma addConstant (h : Supplied Q ks platform) (hv : v.keysDistinct = true) :
    Supplied Q (ks ++ [v]) platform where
  keys := List.forall_mem_append.mpr ⟨h.keys, List.forall_mem_singleton.mpr hv⟩
  provided := h.provided
  distinct := h.distinct

/-- A value that is not there yet is added at the end. -/
lemma addPlatform (h : Supplied Q ks platform) {entry}
    (he : Q entry.name entry.value)
    (hnew : ∀ x ∈ platform, x.name = entry.name → x.value.equals entry.value = false) :
    Supplied Q ks (platform ++ [entry]) where
  keys := h.keys
  provided := List.forall_mem_append.mpr ⟨h.provided, List.forall_mem_singleton.mpr he⟩
  distinct := by
    refine List.pairwise_append.mpr ⟨h.distinct, List.pairwise_singleton .., fun x hx y hy => ?_⟩
    cases List.mem_singleton.mp hy
    exact hnew x hx

end Supplied

/-- Drafts grow by what was provided. -/
def Growth.supplying (Q : String → Value → Prop) : Growth where
  Grows d d' _ := Supplied Q d.constants.toList d.platform.toList →
    Supplied Q d'.constants.toList d'.platform.toList
  Constant v := v.keysDistinct = true
  Platform := Q
  string _ := rfl
  same _ hcs hpl h := by rwa [hcs, hpl]
  trans h h' _ _ hd := h' (h hd)
  addConstant hv h := by
    rw [Array.toList_push]
    exact h.addConstant hv
  addPlatform hv hnew h := by
    rw [Array.toList_push]
    exact h.addPlatform hv fun x hx => hnew x (Array.mem_toList_iff.mp hx)
  addFunction h _ := h

lemma Growth.supplying_writes (h : v.isPlain = true) : (supplying Q).Writes v := by
  rw [Value.isPlain, Bool.and_eq_true] at h
  exact fun name => ⟨fun _ => h.2, fun hdata => absurd h.1 (by simp [hdata])⟩

lemma Environment.Provides.allows (h : env.Provides Q) : (Growth.supplying Q).Allows env := by
  have hprovided : ∀ {name v}, Value.Provided Q name v → (Growth.supplying Q).Provides name v := by
    rintro name v (hplain | ⟨hdata, hQ⟩)
    · exact Growth.supplying_writes hplain name
    · exact ⟨fun htrue => absurd htrue (by simp [hdata]), fun _ => hQ⟩
  exact ⟨fun hget => hprovided (h.names _ _ hget),
    fun hexports hget => hprovided (h.modules _ _ _ _ hexports hget),
    fun hget => hprovided (h.library _ _ hget),
    fun hmem v hv => Growth.supplying_writes (h.sources _ _ hmem v hv)⟩

/-- **The tables of a lowered program**, if what is written in the tree is plain data: no constant
has a key twice, and the values of the host were provided and are different. -/
theorem Expr.lower_tables {e : Expr} {p}
    (henv : env.Provides Q) (he : ∀ v ∈ e.values, v.isPlain = true) (h : e.lower env = .ok p) :
    Supplied Q p.constants.toList p.platform.toList := by
  obtain ⟨body, d, hrun, rfl⟩ := lower_eq_ok h
  refine (Growth.gives_mainCode henv.allows (fun v hv => Growth.supplying_writes (he v hv))
    _ _ _ hrun).2 ⟨?_, ?_, ?_⟩ <;> simp

end TreeCode
