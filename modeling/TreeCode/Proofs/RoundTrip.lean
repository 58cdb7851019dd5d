import TreeCode.Proofs.Reading

/-!
# Programs survive their files

Writing a valid program and reading the bytes gives the program back (`Program.decode_encode`): the
same code, diagnostics, constants and functions, and under the same names the values that the
resolver has for them.

Each writer is paired with its reader by `Reader.Reads`, from constants up to the five sections;
`Program.Written` says where the sections are in the file, and `Program.finds_program` follows the
directory to them. The converse needs no writer: `Program.Readable` is what reading ensures about
any program, from sections in any order or with keys that repeat, and it is all that writing and
reading once more depend on.
-/

namespace TreeCode

open List

/-! ## Constants that a file can hold -/

namespace Value

mutual
/-- No object in the value has a key twice, as befits a map. -/
def keysDistinct : Value → Bool
  | .array es => allKeysDistinct es
  | .object xs => decide (Entries.keys xs).Nodup && entriesKeysDistinct xs
  | _ => true
def allKeysDistinct : List Value → Bool
  | [] => true
  | v :: vs => v.keysDistinct && allKeysDistinct vs
def entriesKeysDistinct : List (String × Value) → Bool
  | [] => true
  | (_, v) :: rest => v.keysDistinct && entriesKeysDistinct rest
end

lemma allKeysDistinct_iff {vs} :
    allKeysDistinct vs = true ↔ ∀ v ∈ vs, v.keysDistinct = true := by
  induction vs with
  | nil => simp [allKeysDistinct]
  | cons v vs ih => simp [allKeysDistinct, ih]

lemma entriesKeysDistinct_iff {es} :
    entriesKeysDistinct es = true ↔ ∀ pair ∈ es, pair.2.keysDistinct = true := by
  induction es with
  | nil => simp [entriesKeysDistinct]
  | cons pair rest ih => simp [entriesKeysDistinct, ih]

end Value

variable {first : Bytes} {bytes : Bytes} {resolve : Nat → String → Option Value}

namespace Container

open Reader

variable {depth : Nat}

lemma bind_eq_ok {ε α β : Type} {x : Except ε α} {f : α → Except ε β} {b} :
    (x >>= f) = .ok b ↔ ∃ a, x = .ok a ∧ f a = .ok b := by
  cases x with
  | error e => simp [bind, Except.bind]
  | ok a => simp [bind, Except.bind]

lemma reads_sizedText {s} (h : sizedText s = .ok bytes) :
    Reads Reader.sizedText bytes (· = s) := by
  obtain ⟨count, hn, hb⟩ := bind_eq_ok.mp h
  cases hb
  exact (reads_size hn).followed (reads_text s)

variable {index count : Nat} {α : Type}

namespace Reader

variable {P : α → Prop} {Q : List α → Prop}

lemma reads_items_nil (rd : Nat → Reader α) (index) :
    Reads (items rd index 0) [] (· = []) :=
  Reads.pure [] rfl

lemma reads_items_cons {rd rest}
    (hf : Reads (rd index) first P) (hr : Reads (items rd (index + 1) count) rest Q) :
    Reads (items rd index (count + 1)) (first ++ rest)
      (fun all => ∃ a as, all = a :: as ∧ P a ∧ Q as) :=
  hf.bind fun a ha => hr.map fun as has => ⟨a, as, rfl, ha, has⟩

/-- Items that are read back one by one. -/
lemma reads_items_cons_eq {rd : Nat → Reader α} {rest : Bytes}
    {a as} (hf : Reads (rd index) first (· = a))
    (hr : Reads (items rd (index + 1) count) rest (· = as)) :
    Reads (items rd index (count + 1)) (first ++ rest) (· = a :: as) := by
  refine (reads_items_cons hf hr).weaken ?_
  rintro _ ⟨_, _, rfl, rfl, rfl⟩
  rfl

end Reader

lemma length_pos_of_constantBytes {v}
    (h : constantBytes index v = .ok bytes) : 0 < bytes.length := by
  cases v with
  | boolean b => cases b <;> cases h <;> simp
  | string s =>
    obtain ⟨_, -, hb⟩ := bind_eq_ok.mp h
    cases hb
    simp
  | array vs =>
    obtain ⟨_, -, h⟩ := bind_eq_ok.mp h
    obtain ⟨_, -, hb⟩ := bind_eq_ok.mp h
    cases hb
    simp
  | object es =>
    obtain ⟨_, -, h⟩ := bind_eq_ok.mp h
    obtain ⟨_, -, hb⟩ := bind_eq_ok.mp h
    cases hb
    simp
  | _ => cases h <;> simp

mutual
/-- A constant is read back. Every nesting takes a byte, so the depth is enough. -/
lemma reads_constant : ∀ (v : Value) {bytes : Bytes} {depth},
    constantBytes index v = .ok bytes → v.keysDistinct = true → bytes.length ≤ depth →
    Reads (constant depth) bytes (· = v)
  | v, _, 0, h, _, hd => absurd hd (Nat.not_le_of_lt (length_pos_of_constantBytes h))
  | .null, _, depth + 1, h, _, _ => by
    cases h
    refine Reads.position fun start => (reads_byte 0).followed ?_
    exact Reads.pure _ rfl
  | .boolean false, _, depth + 1, h, _, _ => by
    cases h
    refine Reads.position fun start => (reads_byte 1).followed ?_
    exact Reads.pure _ rfl
  | .boolean true, _, depth + 1, h, _, _ => by
    cases h
    refine Reads.position fun start => (reads_byte 2).followed ?_
    exact Reads.pure _ rfl
  | .number n, _, depth + 1, h, _, _ => by
    cases h
    refine Reads.position fun start => (reads_byte 3).followed ?_
    exact (reads_number n).map fun _ hn => congrArg Value.number hn
  | .string s, _, depth + 1, h, _, _ => by
    obtain ⟨_, htext, hb⟩ := bind_eq_ok.mp h
    cases hb
    refine Reads.position fun start => (reads_byte 4).followed ?_
    exact (reads_sizedText htext).map fun _ hs => congrArg Value.string hs
  | .array vs, _, depth + 1, h, hks, hd => by
    obtain ⟨count, hcount, h⟩ := bind_eq_ok.mp h
    obtain ⟨es, hes, hb⟩ := bind_eq_ok.mp h
    cases hb
    have hroom : es.length ≤ depth := by
      simp only [length_cons, length_append] at hd
      omega
    refine Reads.position fun start => (reads_byte 5).followed ((reads_size hcount).followed ?_)
    exact (reads_elements vs 0 hes hks hroom).map fun _ hvs => congrArg Value.array hvs
  | .object xs, _, depth + 1, h, hks, hd => by
    obtain ⟨count, hcount, h⟩ := bind_eq_ok.mp h
    obtain ⟨ps, hps, hb⟩ := bind_eq_ok.mp h
    cases hb
    have hroom : ps.length ≤ depth := by
      simp only [length_cons, length_append] at hd
      omega
    obtain ⟨hnodup, hvalues⟩ := (Bool.and_eq_true _ _).mp hks
    refine Reads.position fun start => (reads_byte 6).followed ((reads_size hcount).followed ?_)
    refine (reads_properties xs 0 hps hvalues hroom).map ?_
    rintro _ rfl
    exact congrArg Value.object (Entries.ofPairs_of_nodup (of_decide_eq_true hnodup))
  | .closure _, _, _ + 1, h, _, _ => by cases h
  | .native _, _, _ + 1, h, _, _ => by cases h
  | .error .., _, _ + 1, h, _, _ => by cases h
  | .stream _, _, _ + 1, h, _, _ => by cases h
lemma reads_elements : ∀ (vs : List Value) (place) {bytes : Bytes}
    {depth}, elementBytes index vs = .ok bytes → Value.allKeysDistinct vs = true →
    bytes.length ≤ depth → Reads (items (fun _ => constant depth) place vs.length) bytes (· = vs)
  | [], place, _, _, h, _, _ => by
    cases h
    exact reads_items_nil _ place
  | v :: vs, place, _, _, h, hks, hd => by
    obtain ⟨first, hf, h⟩ := bind_eq_ok.mp h
    obtain ⟨rest, hr, hb⟩ := bind_eq_ok.mp h
    cases hb
    obtain ⟨hv, hvs⟩ := (Bool.and_eq_true _ _).mp hks
    rw [length_append] at hd
    exact reads_items_cons_eq (reads_constant v hf hv (by omega))
      (reads_elements vs (place + 1) hr hvs (by omega))
lemma reads_properties : ∀ (es : List (String × Value)) (place)
    {bytes : Bytes} {depth}, entryBytes index es = .ok bytes →
    Value.entriesKeysDistinct es = true → bytes.length ≤ depth → Reads (items (fun _ => do
      let key ← Reader.sizedText
      return (key, ← constant depth)) place es.length) bytes (· = es)
  | [], place, _, _, h, _, _ => by
    cases h
    exact reads_items_nil _ place
  | (key, v) :: rest, place, _, _, h, hks, hd => by
    obtain ⟨keyBytes, hkey, h⟩ := bind_eq_ok.mp h
    obtain ⟨valueBytes, hvalue, h⟩ := bind_eq_ok.mp h
    obtain ⟨restBytes, hr, hb⟩ := bind_eq_ok.mp h
    cases hb
    obtain ⟨hv, hvs⟩ := (Bool.and_eq_true _ _).mp hks
    rw [length_append, length_append] at hd
    refine reads_items_cons_eq ?_ (reads_properties rest (place + 1) hr hvs (by omega))
    exact (reads_sizedText hkey).followed
      ((reads_constant v hvalue hv (by omega)).map fun _ hv => congrArg (Prod.mk key) hv)
end

/-! ## Sections -/

variable {name : String}

section Sections

variable {P : α → Prop} {Q : List α → Prop}

lemma reads_entry {rd : Nat → Reader α} {content}
    (h : sizedEntry content = .ok bytes) (hr : Reads (rd content.length) content P) :
    Reads (entry name rd) bytes P := by
  obtain ⟨count, hn, hb⟩ := bind_eq_ok.mp h
  cases hb
  refine (reads_size hn).followed ?_
  intro pre after
  obtain ⟨a, ha, hp⟩ := hr pre after
  refine ⟨a, ?_, hp⟩
  -- The reader ends where the entry does, so the check of its length passes.
  show (rd content.length (pre ++ content ++ after) pre.length).bind (fun out =>
    (if out.2 = pre.length + content.length then Pure.pure out.1
      else fail (.malformedSection name pre.length) : Reader α)
      (pre ++ content ++ after) out.2) = _
  rw [ha]
  show (if pre.length + content.length = pre.length + content.length then Pure.pure a
      else fail (.malformedSection name pre.length) : Reader α)
      (pre ++ content ++ after) (pre.length + content.length) = _
  rw [if_pos rfl]
  rfl

lemma reads_section {rd : Nat → Reader α} {chunks}
    (h : sectionBytes chunks = .ok bytes) (hr : Reads (items rd 0 chunks.length) chunks.flatten Q) :
    Reads (do items rd 0 (← size)) bytes Q := by
  obtain ⟨count, hn, hb⟩ := bind_eq_ok.mp h
  cases hb
  exact (reads_size hn).followed hr

end Sections

lemma reads_words : ∀ code place,
    Reads (items (fun _ => word) place (code.map wordBytes).length) (code.map wordBytes).flatten
      (· = code)
  | [], place => reads_items_nil _ place
  | w :: rest, place => reads_items_cons_eq (reads_word w) (reads_words rest (place + 1))

lemma reads_constants : ∀ (vs : List Value) (index place) {chunks},
    constantEntries index vs = .ok chunks → (∀ v ∈ vs, v.keysDistinct = true) →
    chunks.flatten.length ≤ depth →
    Reads (items (fun _ => entry "constant" fun _ => constant depth) place chunks.length)
      chunks.flatten (· = vs)
  | [], _, place, _, h, _, _ => by
    cases h
    exact reads_items_nil _ place
  | v :: vs, index, place, _, h, hks, hd => by
    obtain ⟨content, hc, h⟩ := bind_eq_ok.mp h
    obtain ⟨first, hf, h⟩ := bind_eq_ok.mp h
    obtain ⟨rest, hr, hchunks⟩ := bind_eq_ok.mp h
    cases hchunks
    rw [flatten_cons, length_append] at hd
    have hroom : content.length ≤ first.length := by
      obtain ⟨_, -, hf⟩ := bind_eq_ok.mp hf
      cases hf
      simp
    obtain ⟨hv, hvs⟩ := forall_mem_cons.mp hks
    exact reads_items_cons_eq (reads_entry hf (reads_constant v hc hv (by omega)))
      (reads_constants vs (index + 1) (place + 1) hr hvs (by omega))

lemma length_sizeBytes (h : sizeBytes count = .ok bytes) : bytes.length = 4 := by
  obtain ⟨-, rfl⟩ := lt_of_sizeBytes h
  rfl

lemma reads_function {f offset} (h : sizeBytes f.offset = .ok offset) :
    Reads (Reader.function (offset ++ textBytes f.name).length) (offset ++ textBytes f.name)
      (· = f) := by
  have hlength : (offset ++ textBytes f.name).length = 4 + (textBytes f.name).length := by
    rw [length_append, length_sizeBytes h]
  rw [hlength]
  refine Reads.position fun start => (reads_size h).followed ?_
  rw [if_neg (by omega), Nat.add_sub_cancel_left]
  exact (reads_text f.name).map fun _ hname => by rw [hname]


lemma reads_functions : ∀ (fs : List FunctionEntry) (place) {chunks},
    fs.mapM functionEntry = .ok chunks →
    Reads (items (fun _ => entry "function" Reader.function) place chunks.length) chunks.flatten
      (· = fs)
  | [], place, _, h => by
    cases h
    exact reads_items_nil _ place
  | f :: rest, place, _, h => by
    rw [mapM_cons] at h
    obtain ⟨first, hf, h⟩ := bind_eq_ok.mp h
    obtain ⟨os, ho, hchunks⟩ := bind_eq_ok.mp h
    cases hchunks
    obtain ⟨offset, hoffset, hf⟩ := bind_eq_ok.mp hf
    exact reads_items_cons_eq (reads_entry hf (reads_function hoffset))
      (reads_functions rest (place + 1) ho)

/-! ### Values of the host -/

/-- The entries have the values that the resolver has for their names, from place `index` on. -/
def Resolved (resolve : Nat → String → Option Value) (index : Nat) (table : List PlatformValue) :
    Prop :=
  ∀ (i : Nat) (e : PlatformValue), table[i]? = some e → resolve (index + i) e.name = some e.value

lemma Resolved.cons {e rest}
    (he : resolve index e.name = some e.value) (hr : Resolved resolve (index + 1) rest) :
    Resolved resolve index (e :: rest) := by
  intro i e' he'
  cases i with
  | zero =>
    cases he'
    exact he
  | succ i =>
    rw [Nat.add_comm i 1, ← Nat.add_assoc]
    exact hr i e' he'

lemma reads_platformValue {value} (h : resolve index name = some value) :
    Reads (Reader.platform resolve index (textBytes name).length) (textBytes name)
      (· = ⟨name, value⟩) := by
  rw [← append_nil (textBytes name), Reader.platform]
  refine Reads.followed (by simpa using reads_text name) ?_
  rw [h]
  exact Reads.pure _ rfl

lemma reads_platform : ∀ (table : List PlatformValue) (index) {chunks},
    table.mapM platformEntry = .ok chunks →
    (∀ i e, table[i]? = some e → (resolve (index + i) e.name).isSome) →
    Reads (items (fun i => entry "platform value" (Reader.platform resolve i)) index chunks.length)
      chunks.flatten
      (fun found => found.map (·.name) = table.map (·.name) ∧ Resolved resolve index found)
  | [], index, _, h, _ => by
    cases h
    exact (reads_items_nil _ index).weaken (by rintro _ rfl; exact ⟨rfl, nofun⟩)
  | e :: rest, index, _, h, hns => by
    rw [mapM_cons] at h
    obtain ⟨first, hfirst, h⟩ := bind_eq_ok.mp h
    obtain ⟨os, ho, hchunks⟩ := bind_eq_ok.mp h
    cases hchunks
    obtain ⟨value, hv⟩ := Option.isSome_iff_exists.mp (hns 0 e rfl)
    have hr := reads_platform rest (index + 1) ho (by
      intro i e' he'
      rw [Nat.add_assoc, Nat.add_comm 1 i]
      exact hns (i + 1) e' he')
    refine (reads_items_cons (reads_entry hfirst (reads_platformValue hv)) hr).weaken ?_
    rintro _ ⟨_, found, rfl, rfl, hf, hresolved⟩
    exact ⟨by rw [map_cons, map_cons, hf], Resolved.cons hv hresolved⟩

/-! ### Diagnostics -/

variable {offset : Nat} {d : Diagnostic} {records : List (Nat × Nat × Diagnostic)}
  {rest : List (Option Diagnostic)}

lemma reads_diagnostic {place} (h : sizeBytes offset = .ok place) :
    Reads (Reader.diagnostic
        (place ++ [if d.isArgument then 1 else 0] ++ textBytes d.name).length)
      (place ++ [if d.isArgument then 1 else 0] ++ textBytes d.name)
      (fun record => record.1 = offset ∧ record.2.2 = d) := by
  have hlength : (place ++ [if d.isArgument then (1 : UInt8) else 0] ++ textBytes d.name).length =
      5 + (textBytes d.name).length := by
    rw [length_append, length_append, length_sizeBytes h, length_singleton]
  have hflag : decide ((if d.isArgument then (1 : UInt8) else 0) % 2 = 1) = d.isArgument := by
    cases d.isArgument <;> rfl
  rw [hlength, append_assoc]
  refine Reads.position fun start => (reads_size h).followed ((reads_byte _).followed ?_)
  rw [if_neg (by omega), Nat.add_sub_cancel_left]
  refine (reads_text d.name).map ?_
  rintro _ rfl
  exact ⟨rfl, by rw [hflag]⟩

/-- Placing the records in an empty table from `offset` on gives the diagnostics. -/
def Places (offset : Nat) (diagnostics : List (Option Diagnostic))
    (records : List (Nat × Nat × Diagnostic)) : Prop :=
  ∀ done : List (Option Diagnostic), done.length = offset →
    placeDiagnostics (done ++ replicate diagnostics.length none).toArray records =
      Pure.pure (done ++ diagnostics).toArray

lemma Places.skip (h : Places (offset + 1) rest records) :
    Places offset (none :: rest) records := by
  intro done hdone
  have := h (done ++ [none]) (by simp [hdone])
  simpa [replicate_succ] using this

lemma Places.put {start} (h : Places (offset + 1) rest records) :
    Places offset (some d :: rest) ((offset, start, d) :: records) := by
  intro done hdone
  have := h (done ++ [some d]) (by simp [hdone])
  rw [placeDiagnostics, if_pos (by simp [hdone])]
  simpa [replicate_succ, ← hdone] using this

lemma reads_diagnostics : ∀ (diagnostics : List (Option Diagnostic)) (offset place)
    {chunks}, diagnosticEntries offset diagnostics = .ok chunks →
    Reads (items (fun _ => entry "diagnostic" Reader.diagnostic) place chunks.length) chunks.flatten
      (Places offset diagnostics)
  | [], _, place, _, h => by
    cases h
    refine (reads_items_nil _ place).weaken ?_
    rintro _ rfl done -
    simp [placeDiagnostics]
  | none :: rest, offset, place, _, h =>
    (reads_diagnostics rest (offset + 1) place h).weaken fun _ => Places.skip
  | some d :: rest, offset, place, _, h => by
    obtain ⟨start, hstart, h⟩ := bind_eq_ok.mp h
    obtain ⟨first, hf, h⟩ := bind_eq_ok.mp h
    obtain ⟨os, ho, hchunks⟩ := bind_eq_ok.mp h
    cases hchunks
    refine (reads_items_cons (reads_entry hf (reads_diagnostic hstart))
      (reads_diagnostics rest (offset + 1) (place + 1) ho)).weaken ?_
    rintro _ ⟨⟨_, _, _⟩, records, rfl, ⟨rfl, rfl⟩, hrecords⟩
    exact hrecords.put

/-! ## What reading ensures -/

section Ensuring

variable {P : Nat → α → Prop}

lemma ensures_items {rd} (h : ∀ i, Ensures (rd i) (P i)) :
    ∀ count index, Ensures (items rd index count)
      (fun all => ∀ i a, all[i]? = some a → P (index + i) a)
  | 0, _ => Ensures.pure _ nofun
  | count + 1, index => by
    refine (h index).bind fun first hf => ?_
    refine (ensures_items h count (index + 1)).bind fun rest hr => Ensures.pure _ ?_
    intro i a ha
    cases i with
    | zero =>
      cases ha
      exact hf
    | succ i =>
      rw [Nat.add_comm i 1, ← Nat.add_assoc]
      exact hr i a ha

lemma ensures_entries {rd}
    (h : ∀ i length, Ensures (rd i length) (P i)) : Ensures (entries name offset rd)
      (fun all => ∀ i a, all[i]? = some a → P (0 + i) a) := by
  have he : ∀ i, Ensures (entry name (rd i)) (P i) := by
    intro i
    refine (Ensures.anything _).bind fun length _ => (Ensures.anything _).bind fun start _ => ?_
    refine (h i length).bind fun a ha => (Ensures.anything _).bind fun finish _ => ?_
    split
    · exact Ensures.pure a ha
    · exact Ensures.fail _
  refine (Ensures.anything _).bind fun _ _ => (Ensures.anything _).bind fun count _ => ?_
  exact ensures_items he count 0

end Ensuring

lemma ensures_constant : ∀ depth, Ensures (constant depth) (·.keysDistinct = true)
  | 0 => (Ensures.anything _).bind fun _ _ => Ensures.fail _
  | depth + 1 => by
    refine (Ensures.anything _).bind fun start _ => (Ensures.anything _).bind fun tag _ => ?_
    split
    · exact Ensures.pure _ rfl
    · exact Ensures.pure _ rfl
    · exact Ensures.pure _ rfl
    · exact (Ensures.anything _).bind fun n _ => Ensures.pure _ rfl
    · exact (Ensures.anything _).bind fun s _ => Ensures.pure _ rfl
    · refine (Ensures.anything _).bind fun count _ => ?_
      refine (ensures_items (fun _ => ensures_constant depth) count 0).bind fun vs hvs => ?_
      refine Ensures.pure _ (Value.allKeysDistinct_iff.mpr fun v hv => ?_)
      obtain ⟨i, hi⟩ := getElem?_of_mem hv
      exact hvs i v hi
    · have hproperty : Ensures (do
          let key ← Reader.sizedText
          return (key, ← constant depth)) (fun pair => pair.2.keysDistinct = true) := by
        refine (Ensures.anything _).bind fun key _ => ?_
        exact (ensures_constant depth).bind fun v hv => Ensures.pure _ hv
      refine (Ensures.anything _).bind fun count _ => ?_
      refine (ensures_items (fun _ => hproperty) count 0).bind fun pairs hpairs => ?_
      refine Ensures.pure _ ((Bool.and_eq_true _ _).mpr ⟨?_, ?_⟩)
      · exact decide_eq_true (Entries.nodup_keys_ofPairs pairs)
      · refine Value.entriesKeysDistinct_iff.mpr fun pair hpair => ?_
        obtain ⟨i, hi⟩ := getElem?_of_mem (Entries.mem_of_mem_ofPairs hpair)
        exact hpairs i pair hi
    · exact Ensures.fail _

lemma ensures_platform (index length) : Ensures (Reader.platform resolve index length)
    (fun e => resolve index e.name = some e.value) := by
  refine (Ensures.anything _).bind fun name _ => ?_
  split
  · next value hv => exact Ensures.pure _ hv
  · exact Ensures.fail _

lemma ensures_placeDiagnostics : ∀ (records)
    (table : Array (Option Diagnostic)),
    Ensures (placeDiagnostics table records) (·.size = table.size)
  | [], table => Ensures.pure table rfl
  | (offset, start, d) :: rest, table => by
    rw [placeDiagnostics]
    split
    · have hr := ensures_placeDiagnostics rest (table.setIfInBounds offset (some d))
      rwa [Array.size_setIfInBounds] at hr
    · exact Ensures.fail _

/-! ## The whole file -/

end Container

namespace Program

open Container Reader

variable {p q : Program}

/-- **The program `q` is `p` as a file gives it back**: the same but for the values of the host,
which are those of the resolver. -/
structure Restored (resolve : Nat → String → Option Value) (p q : Program) : Prop where
  code : q.code = p.code
  diagnostics : q.diagnostics = p.diagnostics
  constants : q.constants = p.constants
  functions : q.functions = p.functions
  names : q.platform.map (·.name) = p.platform.map (·.name)
  values : ∀ (i : Nat) (e : PlatformValue), q.platform[i]? = some e →
    resolve i e.name = some e.value

/-- **What is in the file of a program**: the mark, the version, where the sections are, and the
sections. -/
inductive Written (p : Program) : Bytes → Prop where
  | file {constants platform diagnostics functions}
      {code' constants' platform' diagnostics' functions'}
      {codeAt constantsAt platformAt diagnosticsAt functionsAt}
      (hconstants : constantEntries 0 p.constants.toList = .ok constants)
      (hplatform : p.platform.toList.mapM platformEntry = .ok platform)
      (hdiagnostics : diagnosticEntries 0 p.diagnostics.toList = .ok diagnostics)
      (hfunctions : p.functions.toList.mapM functionEntry = .ok functions)
      (hcode' : sectionBytes (p.code.toList.map wordBytes) = .ok code')
      (hconstants' : sectionBytes constants = .ok constants')
      (hplatform' : sectionBytes platform = .ok platform')
      (hdiagnostics' : sectionBytes diagnostics = .ok diagnostics')
      (hfunctions' : sectionBytes functions = .ok functions')
      (hcodeAt : sizeBytes headerLength = .ok codeAt)
      (hconstantsAt : sizeBytes (headerLength + code'.length) = .ok constantsAt)
      (hplatformAt : sizeBytes (headerLength + code'.length + constants'.length) = .ok platformAt)
      (hdiagnosticsAt : sizeBytes (headerLength + code'.length + constants'.length
        + platform'.length) = .ok diagnosticsAt)
      (hfunctionsAt : sizeBytes (headerLength + code'.length + constants'.length
        + platform'.length + diagnostics'.length) = .ok functionsAt) :
      Written p (magic ++ (wordBytes version ++ (codeAt ++ (constantsAt ++ (platformAt ++
        (diagnosticsAt ++ (functionsAt ++ (code' ++ (constants' ++ (platform' ++
          (diagnostics' ++ functions')))))))))))

lemma sectionOffsets_cons {start : Nat} {rest : List Bytes} {offsets}
    (h : sectionOffsets start (first :: rest) = .ok offsets) :
    ∃ here later, offsets = here ++ later ∧ sizeBytes start = .ok here ∧
      sectionOffsets (start + first.length) rest = .ok later := by
  obtain ⟨here, hhere, h⟩ := bind_eq_ok.mp h
  obtain ⟨later, hlater, hoffsets⟩ := bind_eq_ok.mp h
  cases hoffsets
  exact ⟨here, later, rfl, hhere, hlater⟩

lemma written_of_encode (h : p.encode = .ok bytes) : Written p bytes := by
  obtain ⟨code', hcode', h⟩ := bind_eq_ok.mp h
  obtain ⟨ks, hcs, h⟩ := bind_eq_ok.mp h
  obtain ⟨constants', hconstants', h⟩ := bind_eq_ok.mp h
  obtain ⟨platform, hpl, h⟩ := bind_eq_ok.mp h
  obtain ⟨platform', hplatform', h⟩ := bind_eq_ok.mp h
  obtain ⟨diagnostics, hdiagnostics, h⟩ := bind_eq_ok.mp h
  obtain ⟨diagnostics', hdiagnostics', h⟩ := bind_eq_ok.mp h
  obtain ⟨fs, hfs, h⟩ := bind_eq_ok.mp h
  obtain ⟨functions', hfunctions', h⟩ := bind_eq_ok.mp h
  obtain ⟨offsets, hoffsets, h⟩ := bind_eq_ok.mp h
  cases h
  obtain ⟨codeAt, _, rfl, hcodeAt, hoffsets⟩ := sectionOffsets_cons hoffsets
  obtain ⟨constantsAt, _, rfl, hconstantsAt, hoffsets⟩ := sectionOffsets_cons hoffsets
  obtain ⟨platformAt, _, rfl, hplatformAt, hoffsets⟩ := sectionOffsets_cons hoffsets
  obtain ⟨diagnosticsAt, _, rfl, hdiagnosticsAt, hoffsets⟩ := sectionOffsets_cons hoffsets
  obtain ⟨functionsAt, _, rfl, hfunctionsAt, hoffsets⟩ := sectionOffsets_cons hoffsets
  cases hoffsets
  have hfile := Written.file hcs hpl hdiagnostics hfs hcode' hconstants'
    hplatform' hdiagnostics' hfunctions' hcodeAt hconstantsAt hplatformAt hdiagnosticsAt
    hfunctionsAt
  simpa using hfile

/-- The length of a directory. -/
lemma length_of_header
    {code ks platform diagnostics fs codeAt constantsAt platformAt diagnosticsAt functionsAt}
    (hc : sizeBytes code = .ok codeAt) (hcs : sizeBytes ks = .ok constantsAt)
    (hpl : sizeBytes platform = .ok platformAt)
    (hdiagnostics : sizeBytes diagnostics = .ok diagnosticsAt)
    (hfs : sizeBytes fs = .ok functionsAt) :
    4 + (wordBytes version).length + codeAt.length + constantsAt.length + platformAt.length
      + diagnosticsAt.length + functionsAt.length = headerLength := by
  rw [length_sizeBytes hc, length_sizeBytes hcs, length_sizeBytes hpl,
    length_sizeBytes hdiagnostics, length_sizeBytes hfs]
  rfl

/-- The sections of a file are found through its directory. -/
lemma finds_program (hz : p.diagnostics.size = p.code.size)
    (hks : ∀ v ∈ p.constants, v.keysDistinct = true)
    (hns : ∀ i e, p.platform[i]? = some e → (resolve i e.name).isSome = true)
    (h : Written p bytes) : Finds (Reader.program resolve) bytes 4 (Restored resolve p) := by
  cases h with
  | @file ks platform diagnostics fs code' constants' platform' diagnostics'
    functions' codeAt constantsAt platformAt diagnosticsAt functionsAt hcs hpl
    hdiagnostics hfs hcode' hconstants' hplatform' hdiagnostics' hfunctions' hcodeAt
    hconstantsAt hplatformAt hdiagnosticsAt hfunctionsAt =>
    refine Finds.read (reads_word version) ⟨magic, rfl, rfl⟩ fun hs => ?_
    rw [if_neg (by simp)]
    refine Finds.read (reads_size hcodeAt) hs fun hs => ?_
    refine Finds.read (reads_size hconstantsAt) hs fun hs => ?_
    refine Finds.read (reads_size hplatformAt) hs fun hs => ?_
    refine Finds.read (reads_size hdiagnosticsAt) hs fun hs => ?_
    refine Finds.read (reads_size hfunctionsAt) hs fun hs => ?_
    rw [length_of_header hcodeAt hconstantsAt hplatformAt hdiagnosticsAt hfunctionsAt] at hs ⊢
    generalize hfile : magic ++ _ = file at hs ⊢
    have hroom : ks.flatten.length ≤ file.length + 1 := by
      obtain ⟨count, -, hconstants'⟩ := bind_eq_ok.mp hconstants'
      cases hconstants'
      simp only [← hfile, length_append]
      omega
    refine Finds.wholeFile ?_
    refine Finds.bind ((reads_section hcode' (reads_words _ 0)).finds hs _) ?_
    rintro _ start rfl
    refine Finds.bind ((reads_section hconstants' (reads_constants _ 0 0 hcs
      (by simpa using hks) hroom)).finds hs.next _) ?_
    rintro _ start rfl
    refine Finds.bind ((reads_section hplatform' (reads_platform _ 0 hpl
      (by simpa using hns))).finds hs.next.next _) ?_
    rintro found start ⟨hf, hresolved⟩
    refine Finds.bind ((reads_section hdiagnostics' (reads_diagnostics _ 0 0 hdiagnostics)).finds
      hs.next.next.next _) ?_
    intro records start hrecords
    have hplaced : placeDiagnostics (Array.replicate p.code.toList.length none) records =
        Pure.pure p.diagnostics := by
      have := hrecords [] rfl
      simpa [hz] using this
    rw [hplaced, pure_bind]
    have hl := hs.next.next.next.next
    rw [← append_nil functions'] at hl
    refine Finds.bind ((reads_section hfunctions' (reads_functions _ 0 hfs)).finds hl _) ?_
    rintro _ start rfl
    refine ⟨_, start, rfl, rfl, rfl, rfl, rfl, ?_, ?_⟩
    · apply Array.toList_inj.mp
      simpa using hf
    · intro i e he
      simpa using hresolved i e (by simpa using he)

/-! ## Validity -/

lemma narrow_congr (h : q.functions = p.functions) (offset base size) :
    q.narrow offset base size = p.narrow offset base size := by
  rw [narrow.eq_def q, narrow.eq_def p, h]
  split
  · next hs => exact narrow_congr h offset _ _
  · rfl
termination_by size
decreasing_by omega

lemma functionAt?_congr (h : q.functions = p.functions) (offset) :
    q.functionAt? offset = p.functionAt? offset := by
  rw [functionAt?, functionAt?, narrow_congr h, h]

/-- Whether a program is valid depends on its code, its functions and the sizes of its tables. -/
lemma validate_congr (hc : q.code = p.code) (hfs : q.functions = p.functions)
    (hcs : q.constants.size = p.constants.size)
    (hpl : q.platform.size = p.platform.size) : q.validate = p.validate := by
  have hat := functionAt?_congr hfs
  have hinstruction : ∀ offset i, q.checkInstruction offset i = p.checkInstruction offset i := by
    intro offset i
    unfold checkInstruction checkJump
    simp only [hc, hcs, hpl, hat]
  have hitems : ∀ items, q.checkItems items = p.checkItems items := by
    intro items
    induction items with
    | nil => rfl
    | cons item rest ih =>
      cases item with
      | error e => rfl
      | ok here => rw [checkItems, checkItems, hinstruction, ih]
  rw [validate, validate, hitems, hc]

namespace Restored

variable (h : Restored resolve p q)

include h

lemma platform_size : q.platform.size = p.platform.size := by
  simpa using congrArg Array.size h.names

lemma validate_eq : q.validate = p.validate :=
  validate_congr h.code h.functions (by rw [h.constants]) h.platform_size

/-- A program whose values of the host are the resolver's is given back as it is. -/
lemma eq_self (hvs : ∀ i e,
    p.platform[i]? = some e → resolve i e.name = some e.value) : q = p := by
  have hpl : q.platform = p.platform := by
    apply Array.ext_getElem?
    intro i
    have hname : q.platform[i]?.map (·.name) = p.platform[i]?.map (·.name) := by
      simpa using congrArg (·[i]?) h.names
    cases hq : q.platform[i]? with
    | none =>
      rw [hq] at hname
      exact (Option.map_eq_none_iff.mp hname.symm).symm
    | some e =>
      rw [hq] at hname
      obtain ⟨e', he', hsame⟩ := Option.map_eq_some_iff.mp hname.symm
      have hv : some e'.value = some e.value := by rw [← hvs i e' he', ← h.values i e hq, hsame]
      rw [he']
      cases e
      cases e'
      simp_all
  obtain ⟨code, diagnostics, ks, platform, fs⟩ := q
  obtain ⟨hc, hdiagnostics, hcs, hfs, -, -⟩ := h
  dsimp only at hc hdiagnostics hcs hfs hpl
  subst hc hdiagnostics hcs hfs hpl
  rfl

end Restored

/-! ## The other way round -/

lemma decode_eq (resolve) (bytes : Bytes) :
    decode resolve bytes =
      if bytes.length < headerLength then .error (.truncated bytes.length)
      else if bytes.take 4 ≠ magic then .error .badMagic
      else (Reader.program resolve bytes 4).bind fun out =>
        out.1.validate.bind fun _ => .ok out.1 := by
  rw [decode]
  split
  · rfl
  · split
    · rfl
    · show ((Reader.program resolve bytes 4).map Prod.fst).bind _ = _
      cases Reader.program resolve bytes 4 <;> rfl

/-- A decoded program was read from the file, and is valid. -/
lemma read_of_decode (h : decode resolve bytes = .ok q) :
    (∃ finish, Reader.program resolve bytes 4 = .ok (q, finish)) ∧ q.validate = .ok () := by
  rw [decode_eq] at h
  split at h
  · cases h
  split at h
  · cases h
  obtain ⟨⟨p, finish⟩, hp, h⟩ := bind_eq_ok.mp h
  obtain ⟨⟨⟩, hvalid, hq⟩ := bind_eq_ok.mp h
  cases hq
  exact ⟨⟨finish, hp⟩, hvalid⟩

lemma decode_written (h : Written p bytes) (hvalid : p.validate = .ok ())
    (hfinds : Finds (Reader.program resolve) bytes 4 (Restored resolve p)) :
    ∃ q, decode resolve bytes = .ok q ∧ Restored resolve p q := by
  obtain ⟨q, finish, hread, hq⟩ := hfinds
  refine ⟨q, ?_, hq⟩
  have hlength : ¬bytes.length < headerLength := by
    cases h with
    | file _ _ _ _ _ _ _ _ _ hcodeAt hconstantsAt hplatformAt hdiagnosticsAt hfunctionsAt =>
      simp only [length_append, length_sizeBytes hcodeAt, length_sizeBytes hconstantsAt,
        length_sizeBytes hplatformAt, length_sizeBytes hdiagnosticsAt,
        length_sizeBytes hfunctionsAt, headerLength, magic, wordBytes, length_cons,
        length_nil]
      omega
  have hmagic : bytes.take 4 = magic := by
    cases h
    rfl
  rw [decode_eq, if_neg hlength, if_neg (not_not_intro hmagic), hread]
  show q.validate.bind _ = _
  rw [hq.validate_eq, hvalid]
  rfl

/-- What reading has to say about a program, wherever its bytes are from. -/
structure Readable (resolve : Nat → String → Option Value) (q : Program) : Prop where
  diagnostics : q.diagnostics.size = q.code.size
  constants : ∀ v ∈ q.constants, v.keysDistinct = true
  values : ∀ (i : Nat) (e : PlatformValue), q.platform[i]? = some e →
    resolve i e.name = some e.value

lemma ensures_program : Ensures (Reader.program resolve) (Readable resolve) := by
  refine (Ensures.anything _).bind fun stated _ => ?_
  split
  · exact Ensures.bind (Ensures.fail (P := fun _ => False) _) nofun
  refine (Ensures.anything _).bind fun codeAt _ => ?_
  refine (Ensures.anything _).bind fun constantsAt _ => ?_
  refine (Ensures.anything _).bind fun platformAt _ => ?_
  refine (Ensures.anything _).bind fun diagnosticsAt _ => ?_
  refine (Ensures.anything _).bind fun functionsAt _ => ?_
  refine (Ensures.anything _).bind fun file _ => ?_
  refine (Ensures.anything _).bind fun code _ => ?_
  refine (ensures_entries fun _ _ => ensures_constant _).bind fun ks hconstants => ?_
  refine (ensures_entries fun i length => ensures_platform i length).bind fun platform hplatform =>
    ?_
  refine (Ensures.anything _).bind fun records _ => ?_
  refine (ensures_placeDiagnostics records _).bind fun diagnostics hdiagnostics => ?_
  refine (Ensures.anything _).bind fun functions _ => ?_
  refine Ensures.pure _ ⟨?_, ?_, ?_⟩
  · simpa using hdiagnostics
  · intro v hv
    obtain ⟨i, hi⟩ := getElem?_of_mem (mem_toArray.mp hv)
    exact hconstants i v hi
  · intro i e he
    simpa using hplatform i e (by simpa using he)

/-- **A program survives its file.** What is written is read back: the code, the diagnostics, the
constants bit by bit and in the order of their keys, the functions, and the names of the host's
values with what the resolver has for them. So a program that was read, from whatever layout, and is
written again is read as the same program. -/
theorem decode_encode (resolve : Nat → String → Option Value) :
    (∀ (p : Program) (bytes : Bytes), p.validate = .ok () → p.diagnostics.size = p.code.size →
      (∀ v ∈ p.constants, v.keysDistinct = true) →
      (∀ (i : Nat) (e : PlatformValue), p.platform[i]? = some e →
        (resolve i e.name).isSome = true) →
      p.encode = .ok bytes → ∃ q, decode resolve bytes = .ok q ∧ Restored resolve p q) ∧
    ∀ (bytes bytes' : Bytes) (q : Program), decode resolve bytes = .ok q →
      q.encode = .ok bytes' → decode resolve bytes' = .ok q := by
  constructor
  · intro p bytes hvalid hsize hkeys hnames h
    have hwritten := written_of_encode h
    exact decode_written hwritten hvalid (finds_program hsize hkeys hnames hwritten)
  · intro bytes bytes' q hq h
    obtain ⟨⟨finish, hread⟩, hvalid⟩ := read_of_decode hq
    have hreadable : Readable resolve q := ensures_program bytes 4 q finish hread
    have hnames : ∀ (i : Nat) (e : PlatformValue), q.platform[i]? = some e →
        (resolve i e.name).isSome = true :=
      fun i e he => Option.isSome_of_eq_some (hreadable.values i e he)
    have hwritten := written_of_encode h
    obtain ⟨q', hq', hsame⟩ := decode_written hwritten hvalid
      (finds_program hreadable.diagnostics hreadable.constants hnames hwritten)
    rw [hq', hsame.eq_self hreadable.values]

/-- A program with a nested constant, a value of the host, a function and two diagnostics. -/
def sample : Program where
  code := #[0x01, 0, 0x02, 0, 0x40, 7, 0x44, 0x44]
  diagnostics := #[none, none, some ⟨"print", false⟩, none, some ⟨"f", true⟩, none, none, none]
  constants := #[.object [("b", .array [.null, .boolean true]), ("a", .ofNat 1)]]
  platform := #[⟨"print", .null⟩]
  functions := #[⟨"f", 7⟩]

lemma exists_of_isOk {ε α : Type} {x : Except ε α} (h : x.isOk = true) : ∃ a, x = .ok a := by
  cases x with
  | error e => cases h
  | ok a => exact ⟨a, rfl⟩

/-- The sample and its file. -/
theorem decode_encode_sample : ∃ bytes, sample.encode = .ok bytes ∧
    decode (fun _ _ => some .null) bytes = .ok sample := by
  obtain ⟨⟨⟩, hvalid⟩ : ∃ u, sample.validate = .ok u := exists_of_isOk (by decide +kernel)
  obtain ⟨bytes, hbytes⟩ : ∃ bytes, sample.encode = .ok bytes := exists_of_isOk (by decide +kernel)
  have hvalues : ∀ (i : Nat) (e : PlatformValue), sample.platform[i]? = some e →
      (some .null : Option Value) = some e.value := by
    intro i e he
    match i with
    | 0 => cases he; rfl
    | i + 1 => cases he
  obtain ⟨q, hq, hsame⟩ := (decode_encode fun _ _ => some .null).1 sample bytes hvalid rfl
    (by simp [sample]; decide) (fun _ _ _ => rfl) hbytes
  obtain rfl := hsame.eq_self hvalues
  exact ⟨bytes, hbytes, (decode_encode _).2 bytes bytes _ hq hbytes⟩

end Program

end TreeCode
