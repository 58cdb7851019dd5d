/-!
# Entries — maps that keep the order of insertion

An object, a set of bindings and a library are all maps from names that remember the order in which
names were first inserted. They are lists of pairs. Inserting a name that is present replaces its
value and keeps its place: **first position, last value**.
-/

namespace TreeCode

/-- A map from names, in the order of insertion. -/
abbrev Entries (α : Type) := List (String × α)

namespace Entries

variable {α : Type}

/-- The value under `key`. -/
def get? : Entries α → String → Option α
  | [], _ => none
  | (k, v) :: rest, key => if k = key then some v else get? rest key

def contains (entries : Entries α) (key : String) : Bool := (get? entries key).isSome

/-- Put `value` under `key`: in the key's place if it is present, otherwise at the end. -/
def insert : Entries α → String → α → Entries α
  | [], key, value => [(key, value)]
  | (k, v) :: rest, key, value =>
    if k = key then (k, value) :: rest else (k, v) :: insert rest key value

/-- Remove `key`, keeping the order of the others. -/
def erase : Entries α → String → Entries α
  | [], _ => []
  | (k, v) :: rest, key => if k = key then rest else (k, v) :: erase rest key

/-- Insert every pair of `more`, in order. -/
def merge (entries more : Entries α) : Entries α :=
  more.foldl (fun acc pair => insert acc pair.1 pair.2) entries

/-- The map that inserting the pairs in order gives. -/
def ofPairs (pairs : List (String × α)) : Entries α := merge [] pairs

def keys (entries : Entries α) : List String := entries.map (·.1)

def values (entries : Entries α) : List α := entries.map (·.2)

/-! ## Small laws -/

variable {entries : Entries α} {key : String} {value : α}

theorem mem_of_get? (h : get? entries key = some value) : (key, value) ∈ entries := by
  induction entries with
  | nil => simp [get?] at h
  | cons pair rest ih =>
    obtain ⟨k, v⟩ := pair
    rw [get?] at h
    split at h
    next hk => simp_all
    next hk => exact List.mem_cons_of_mem _ (ih h)

/-- A value found in a map is smaller than the map. -/
theorem sizeOf_get?_lt [SizeOf α]
    (h : get? entries key = some value) : sizeOf value < sizeOf entries := by
  have hm := List.sizeOf_lt_of_mem (mem_of_get? h)
  have : sizeOf (key, value) = 1 + sizeOf key + sizeOf value := rfl
  omega

@[simp]
theorem get?_insert_self (entries : Entries α) (key : String) (value : α) :
    get? (insert entries key value) key = some value := by
  induction entries with
  | nil => simp [insert, get?]
  | cons pair rest ih =>
    obtain ⟨k, v⟩ := pair
    by_cases hk : k = key <;> simp [insert, get?, hk, ih]

theorem get?_insert_of_ne {other : String}
    (h : other ≠ key) : get? (insert entries key value) other = get? entries other := by
  induction entries with
  | nil => simp [insert, get?, h.symm]
  | cons pair rest ih =>
    obtain ⟨k, v⟩ := pair
    by_cases hk : k = key
    · subst hk
      simp [insert, get?, h.symm]
    · by_cases ho : k = other <;> simp_all [insert, get?]

/-! ## Keys -/

theorem mem_keys_insert {name : String} :
    name ∈ keys (insert entries key value) ↔ name ∈ keys entries ∨ name = key := by
  induction entries with
  | nil => simp [insert, keys]
  | cons pair rest ih =>
    obtain ⟨k, v⟩ := pair
    rw [insert]
    split
    · next hk => subst hk; simp [keys, or_comm]
    · simp only [keys, List.map_cons, List.mem_cons] at ih ⊢
      rw [ih, or_assoc]

variable {more : Entries α}

theorem mem_keys_merge : ∀ {entries : Entries α} {name : String},
    name ∈ keys (merge entries more) ↔ name ∈ keys entries ∨ name ∈ keys more := by
  induction more with
  | nil => simp [merge, keys]
  | cons pair rest ih =>
    intro entries name
    have hstep : merge entries (pair :: rest) = merge (insert entries pair.1 pair.2) rest := rfl
    rw [hstep, ih, mem_keys_insert, or_assoc]
    simp [keys]

theorem contains_iff_mem_keys {name : String} :
    contains entries name = true ↔ name ∈ keys entries := by
  induction entries with
  | nil => simp [contains, get?, keys]
  | cons pair rest ih =>
    obtain ⟨k, v⟩ := pair
    simp only [contains, get?, keys, List.map_cons, List.mem_cons] at ih ⊢
    split
    · next hk => simp [hk]
    · next hk => rw [ih]; simp [Ne.symm hk]

/-- In a map, a pair is found by its key. -/
theorem get?_of_mem {pairs : Entries α} (h : (keys pairs).Nodup)
    (hmem : (key, value) ∈ pairs) : get? pairs key = some value := by
  induction pairs with
  | nil => cases hmem
  | cons pair pairs ih =>
    obtain ⟨k, w⟩ := pair
    obtain ⟨hfirst, hrest⟩ := List.nodup_cons.mp h
    rw [get?]
    rcases List.mem_cons.mp hmem with heq | hmem
    · cases heq
      exact if_pos rfl
    · have hne : k ≠ key := by
        rintro rfl
        exact hfirst (List.mem_map.mpr ⟨_, hmem, rfl⟩)
      rw [if_neg hne]
      exact ih hrest hmem

variable {pair : String × α}

theorem mem_of_mem_insert
    (h : pair ∈ insert entries key value) : pair ∈ entries ∨ pair = (key, value) := by
  induction entries with
  | nil => simpa [insert] using h
  | cons first rest ih =>
    obtain ⟨k, v⟩ := first
    rw [insert] at h
    split at h
    · next hk =>
      subst hk
      rcases List.mem_cons.mp h with h | h
      · exact .inr h
      · exact .inl (List.mem_cons_of_mem _ h)
    · rcases List.mem_cons.mp h with h | h
      · exact .inl (h ▸ List.mem_cons_self)
      · exact (ih h).imp_left (List.mem_cons_of_mem _)

theorem mem_of_mem_merge : ∀ {entries : Entries α},
    pair ∈ merge entries more → pair ∈ entries ∨ pair ∈ more := by
  induction more with
  | nil => exact .inl
  | cons first rest ih =>
    intro entries h
    rcases ih h with h | h
    · rcases mem_of_mem_insert h with h | h
      · exact .inl h
      · exact .inr (h ▸ List.mem_cons_self)
    · exact .inr (List.mem_cons_of_mem _ h)

theorem mem_of_mem_ofPairs {pairs : List (String × α)} (h : pair ∈ ofPairs pairs) : pair ∈ pairs :=
  (mem_of_mem_merge h).resolve_left List.not_mem_nil

theorem nodup_keys_insert (h : (keys entries).Nodup) (key : String)
    (value : α) : (keys (insert entries key value)).Nodup := by
  induction entries with
  | nil => simp [insert, keys]
  | cons pair rest ih =>
    obtain ⟨k, v⟩ := pair
    rw [insert]
    split
    · exact h
    · next hk =>
      obtain ⟨hfirst, hrest⟩ := List.nodup_cons.mp h
      refine List.nodup_cons.mpr ⟨fun hmem => ?_, ih hrest⟩
      rcases mem_keys_insert.mp hmem with hmem | heq
      · exact hfirst hmem
      · exact hk heq

theorem nodup_keys_merge : ∀ {entries : Entries α}, (keys entries).Nodup →
    (keys (merge entries more)).Nodup := by
  induction more with
  | nil => exact id
  | cons pair rest ih => exact fun h => ih (nodup_keys_insert h pair.1 pair.2)

/-- No key comes twice, whatever the pairs. -/
theorem nodup_keys_ofPairs (pairs : List (String × α)) : (keys (ofPairs pairs)).Nodup :=
  nodup_keys_merge List.nodup_nil

theorem insert_of_not_mem (h : key ∉ keys entries)
    (value : α) : insert entries key value = entries ++ [(key, value)] := by
  induction entries with
  | nil => rfl
  | cons pair rest ih =>
    obtain ⟨k, v⟩ := pair
    have hne : k ≠ key := fun heq => h (heq ▸ List.mem_cons_self)
    rw [insert, if_neg hne, ih fun hmem => h (List.mem_cons_of_mem _ hmem)]
    rfl

theorem merge_of_nodup : ∀ {entries : Entries α},
    (keys (entries ++ more)).Nodup → merge entries more = entries ++ more := by
  induction more with
  | nil => simp [merge]
  | cons pair rest ih =>
    intro entries h
    have hnew : pair.1 ∉ keys entries := by
      simp only [keys, List.map_append, List.map_cons, List.nodup_append] at h
      exact fun hmem => h.2.2 _ hmem _ List.mem_cons_self rfl
    have happend : entries ++ pair :: rest = entries ++ [pair] ++ rest := by simp
    have hstep : merge entries (pair :: rest) = merge (entries ++ [pair]) rest := by
      rw [← insert_of_not_mem hnew pair.2]
      rfl
    rw [happend] at h ⊢
    rw [hstep, ih h]

/-- Pairs with different keys are a map already. -/
theorem ofPairs_of_nodup {pairs : List (String × α)} (h : (keys pairs).Nodup) :
    ofPairs pairs = pairs :=
  merge_of_nodup h

end Entries

end TreeCode
