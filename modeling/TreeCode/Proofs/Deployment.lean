import Mathlib.Logic.Equiv.Basic
import TreeCode.Proofs.Platform
import TreeCode.Proofs.Renamed
import TreeCode.Proofs.WellFormed

/-!
# Programs that are run from a file

A program refers to the functions of the standard library, and its file has only their names. A
reader puts instances of its own into the table, one for each entry, where the program that was
written had the instance of the library. Since every function is in the table once, this exchanges
instances (`Renaming.ofTable`), and the program that was read is the one that was written, renamed
(`Restored.eq_program`). So it runs the same (`Expr.run_decoded`).
-/

namespace TreeCode

open Builtin Entries

namespace Builtin

variable {name other : String} {code : Nat} {v : Value}

lemma names_nodup : (natives.map (·.1)).Nodup := by decide

lemma findIdx?_natives {native} (h : natives[code]? = some (name, native)) :
    natives.findIdx? (·.1 == name) = some code := by
  obtain ⟨hc, hget⟩ := List.getElem?_eq_some_iff.mp h
  refine List.findIdx?_eq_some_iff_getElem.mpr ⟨hc, by simp [hget], fun j hj => ?_⟩
  have hdiff := List.pairwise_iff_getElem.mp names_nodup j code (by simp; omega) (by simpa) hj
  simpa [hget] using hdiff

/-- Functions with one code have one name. -/
lemma eq_of_findIdx? (h : natives.findIdx? (·.1 == name) = some code)
    (h' : natives.findIdx? (·.1 == other) = some code) : name = other := by
  obtain ⟨_, hname, -⟩ := List.findIdx?_eq_some_iff_getElem.mp h
  obtain ⟨_, hother, -⟩ := List.findIdx?_eq_some_iff_getElem.mp h'
  rw [← beq_iff_eq.mp hname, ← beq_iff_eq.mp hother]

lemma instance?_eq_some {copy} : instance? name copy = some v ↔
    ∃ code, natives.findIdx? (·.1 == name) = some code ∧ v = .native { name, code, copy } := by
  simp [instance?, eq_comm]

lemma mem_library_value (h : (name, Definition.value v) ∈ library) : instance? name 0 = some v := by
  have hmem := mem_of_mem_ofPairs h
  simp only [List.mem_append, List.mem_map, values] at hmem
  obtain ⟨_, ⟨⟨⟨n, native⟩, code⟩, he, rfl⟩, heq⟩ | ⟨_, -, heq⟩ := hmem
  · cases heq
    exact instance?_eq_some.mpr ⟨code, findIdx?_natives (List.mem_zipIdx_iff_getElem?.mp he), rfl⟩
  · cases heq

lemma mem_library_source {e} (h : (name, Definition.source e) ∈ library) :
    (name, e) ∈ sources := by
  have hmem := mem_of_mem_ofPairs h
  simp only [List.mem_append, List.mem_map] at hmem
  obtain ⟨_, -, heq⟩ | ⟨pair, hpair, heq⟩ := hmem
  · cases heq
  · cases heq
    exact hpair

lemma sources_plain : ∀ pair ∈ sources, ∀ v ∈ pair.2.values, v.isPlain = true := by decide +kernel

/-- **What the standard library provides** under a name is its instance of the function. -/
theorem provides {env : Environment} (hlibrary : env.library = library)
    (hns : ∀ name v, get? env.names name = some v → v.isPlain = true)
    (hmodules : ∀ module exports name v, get? env.modules module = some exports →
      get? exports name = some v → v.isPlain = true) :
    env.Provides fun name v => instance? name 0 = some v where
  names name v h := .inl (hns name v h)
  modules module exports name v h h' := .inl (hmodules module exports name v h h')
  library name v h := by
    have hv := mem_library_value (hlibrary ▸ mem_of_get? h)
    obtain ⟨code, -, rfl⟩ := instance?_eq_some.mp hv
    exact .inr ⟨rfl, hv⟩
  sources name e h := sources_plain (name, e) (mem_library_source (hlibrary ▸ h))

end Builtin

/-! ## The exchange -/

/-- **The exchange that reading a table is**: the library's instance of the function of an entry,
and the instance that the entry gets. -/
def Renaming.ofTable (names : List String) : Renaming where
  copy code n :=
    match names.findIdx? fun name => natives.findIdx? (·.1 == name) == some code with
    | some i => Equiv.swap 0 (i + 1) n
    | none => n
  involutive code n := by
    split
    · exact Equiv.swap_apply_self 0 _ n
    · rfl

lemma Renaming.ofTable_zero {names i code name}
    (hnodup : names.Nodup) (hi : names[i]? = some name)
    (hc : natives.findIdx? (·.1 == name) = some code) : (ofTable names).copy code 0 = i + 1 := by
  have hfind : (names.findIdx? fun name => natives.findIdx? (·.1 == name) == some code)
      = some i := by
    obtain ⟨hlt, hget⟩ := List.getElem?_eq_some_iff.mp hi
    refine List.findIdx?_eq_some_iff_getElem.mpr ⟨hlt, by simp [hget, hc], fun j hj => ?_⟩
    have hdiff := List.pairwise_iff_getElem.mp hnodup j i (by omega) hlt hj
    rw [hget] at hdiff
    simpa using fun h => hdiff (eq_of_findIdx? h hc)
  simp only [ofTable, hfind, Equiv.swap_apply_left]

/-- No function of the standard library is in the table twice. -/
lemma Supplied.names_nodup {ks platform}
    (h : Supplied (fun name v => instance? name 0 = some v) ks platform) :
    (platform.map (·.name)).Nodup := by
  refine List.pairwise_map.mpr (h.distinct.imp_of_mem fun {x y} hx hy hdistinct hname => ?_)
  have hv : x.value = y.value :=
    Option.some.inj ((h.provided x hx).symm.trans (hname ▸ h.provided y hy))
  obtain ⟨code, -, hc⟩ := instance?_eq_some.mp (h.provided y hy)
  have hequals := hdistinct hname
  rw [hv, hc] at hequals
  simp [Value.equals] at hequals

@[simp]
lemma Renaming.machine_start (ρ : Renaming) : ρ.machine (Machine.start {}) = Machine.start {} := by
  simp [machine, Machine.start, heap]

/-- **The program that is read from the file of a program** is that program, renamed. -/
theorem Program.Restored.eq_program {p q} (h : Restored resolve p q)
    (hdata : ∀ v ∈ p.constants, v.isData = true)
    (hsupplied : Supplied (fun name v => instance? name 0 = some v) p.constants.toList
      p.platform.toList) :
    q = (Renaming.ofTable (p.platform.toList.map (·.name))).program p := by
  have hcs : p.constants.map (Renaming.ofTable (p.platform.toList.map (·.name))).value
      = p.constants :=
    (Array.map_congr_left fun v hv => Renaming.value_of_isData _ v (hdata v hv)).trans
      (Array.map_id' _)
  have hs : q.platform.size = p.platform.size := by simpa using congrArg Array.size h.names
  have hpl : q.platform = p.platform.map fun entry =>
      { entry with
        value := (Renaming.ofTable (p.platform.toList.map (·.name))).value entry.value } := by
    refine Array.ext (by simpa using hs) fun i hq hp => ?_
    rw [Array.size_map] at hp
    have hname : q.platform[i].name = p.platform[i].name := by
      have := congrArg (·[i]?) h.names
      simpa [hq, hp] using this
    have hread := h.values i _ (Array.getElem?_eq_getElem hq)
    have hwritten := hsupplied.provided p.platform[i] (by simp)
    obtain ⟨code, hc, hvalue⟩ := instance?_eq_some.mp hwritten
    obtain ⟨code', hcode', hvalue'⟩ := instance?_eq_some.mp hread
    rw [hname, hc] at hcode'
    cases hcode'
    have hcopy := Renaming.ofTable_zero (i := i) hsupplied.names_nodup (by simp [hp]) hc
    rw [Array.getElem_map, hvalue, Renaming.value_native, Renaming.ref, hcopy, ← hname, ← hvalue']
  have hc := h.code
  have hdiagnostics := h.diagnostics
  have hfs := h.functions
  have hsame := h.constants
  cases q
  simp only [Renaming.program, hcs, ← hpl] at *
  subst hc hdiagnostics hfs hsame
  rfl

lemma Program.size_of_encode {p : Program} {bytes} (h : p.encode = .ok bytes) :
    p.code.size < UInt32.size := by
  obtain ⟨code', hcode', -⟩ := Container.bind_eq_ok.mp h
  obtain ⟨size, hs, -⟩ := Container.bind_eq_ok.mp hcode'
  rw [Container.sizeBytes] at hs
  split at hs
  · next hlt => simpa [UInt32.size] using hlt
  · cases hs

/-- **The file of a lowered program can be read**, which gives the program, renamed. -/
theorem Program.decode_lowered {env} {e : Expr} {p : Program} {bytes}
    (hsupplied : Supplied (fun name v => instance? name 0 = some v) p.constants.toList
      p.platform.toList) (hl : e.lower env = .ok p) (hencode : p.encode = .ok bytes) :
    decode resolve bytes
      = .ok ((Renaming.ofTable (p.platform.toList.map (·.name))).program p) := by
  obtain ⟨S, rfl, hS, hdata⟩ := Expr.lower_belongs hl (size_of_encode hencode)
  have hresolve : ∀ i entry, S.program.platform[i]? = some entry →
      (resolve i entry.name).isSome = true := by
    intro i entry he
    obtain ⟨code, hc, -⟩ := instance?_eq_some.mp
      (hsupplied.provided entry (Array.mem_toList_iff.mpr (Array.mem_of_getElem? he)))
    simp [resolve, instance?, hc]
  have hwritten := written_of_encode hencode
  obtain ⟨q, hd, hrestored⟩ := decode_written hwritten hS.validate
    (finds_program (Code.size_diagnostics _)
      (fun v hv => hsupplied.keys v (Array.mem_toList_iff.mpr hv)) hresolve hwritten)
  rw [hd, hrestored.eq_program hdata hsupplied]

/-- **A program run from its file runs the same.** Take a tree in which only plain data is written,
with plain data as the names and the modules of the host, and lower it against the standard library.
If the program can be written to a file, then the file can be read back; the program has every
function of the library in its table once at most, under the function's own name; and under all
limits the program that was read has the outcome and the number of steps of the program that was
written. The instances of the library's functions, which only equality can tell apart, are exchanged
for those of the file. -/
theorem Expr.run_decoded {env : Environment} {e : Expr} {p : Program} {bytes : Bytes}
    (hlibrary : env.library = Builtin.library)
    (hnames : ∀ name v, Entries.get? env.names name = some v → v.isPlain = true)
    (hmodules : ∀ module exports name v, Entries.get? env.modules module = some exports →
      Entries.get? exports name = some v → v.isPlain = true) (he : ∀ v ∈ e.values, v.isPlain = true)
    (hlower : e.lower env = .ok p) (hencode : p.encode = .ok bytes) :
    (p.platform.toList.map (·.name)).Nodup
      ∧ (∀ entry ∈ p.platform.toList, Builtin.instance? entry.name 0 = some entry.value)
      ∧ ∃ q, Program.decode Builtin.resolve bytes = .ok q ∧ ∃ ρ : Renaming, ∀ limits fuel,
        (Machine.start {}).run ⟨q, .standard, limits⟩ fuel
            = ρ.given ρ.outcome ((Machine.start {}).run ⟨p, .standard, limits⟩ fuel)
          ∧ ∀ outcome m, (Machine.start {}).run ⟨p, .standard, limits⟩ fuel = some (outcome, m) →
            ∃ m', (Machine.start {}).run ⟨q, .standard, limits⟩ fuel = some (ρ.outcome outcome, m')
              ∧ m'.steps = m.steps := by
  have hsupplied := Expr.lower_tables (Builtin.provides hlibrary hnames hmodules) he hlower
  refine ⟨hsupplied.names_nodup, hsupplied.provided, _,
    Program.decode_lowered hsupplied hlower hencode,
    .ofTable (p.platform.toList.map (·.name)), fun limits fuel => ?_⟩
  have hrun := (Renaming.ofTable (p.platform.toList.map (·.name))).run_machine
    (S := ⟨p, .standard, limits⟩) Host.standard_uniform (Machine.start {}) fuel
  rw [Renaming.machine_start] at hrun
  refine ⟨hrun, fun outcome m h => ?_⟩
  rw [h] at hrun
  exact ⟨_, hrun, rfl⟩

namespace Expr

/-- A tree that uses a function of the library, directly, as a value and through another one. -/
def adding : Expr :=
  .array [.item (callOf "increment" [ref "start"]),
    .item (callOf "plus" [ref "start", literalOf 2]),
    .item (ref "plus")]

def addingFrom : Environment := { library := library, names := [("start", .ofNat 7)] }

lemma adding_encodes : ∃ p bytes, adding.lower addingFrom = .ok p ∧ p.encode = .ok bytes := by
  have hcheck : (adding.lower addingFrom).toOption.any (·.encode.isOk) = true := by decide +kernel
  obtain ⟨p, hl, htest⟩ := lowers_of_any hcheck
  obtain ⟨bytes, hb⟩ := Program.exists_of_isOk htest
  exact ⟨p, bytes, hl, hb⟩

theorem run_decoded_adding : ∃ p bytes q, adding.lower addingFrom = .ok p ∧ p.encode = .ok bytes
    ∧ Program.decode Builtin.resolve bytes = .ok q
    ∧ ∃ ρ : Renaming, ∀ limits fuel, (Machine.start {}).run ⟨q, .standard, limits⟩ fuel
        = ρ.given ρ.outcome ((Machine.start {}).run ⟨p, .standard, limits⟩ fuel) := by
  obtain ⟨p, bytes, hlower, hencode⟩ := adding_encodes
  have hnames : ∀ name v, Entries.get? addingFrom.names name = some v → v.isPlain = true := by
    intro name v h
    cases List.mem_singleton.mp (Entries.mem_of_get? h)
    rfl
  obtain ⟨-, -, q, hdecode, ρ, hrun⟩ := run_decoded rfl hnames (fun _ _ _ _ h => by cases h)
    (by decide +kernel) hlower hencode
  exact ⟨p, bytes, q, hlower, hencode, hdecode, ρ, fun limits fuel => (hrun limits fuel).1⟩

end Expr

end TreeCode
