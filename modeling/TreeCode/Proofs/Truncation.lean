import TreeCode.Proofs.RoundTrip

/-!
# A file cut short is no program

The section of the functions is the last one of a file, and it is read last. What a reader finds in
a file, it finds in every longer file, ending at the same place (`Reader.Extends`). So whatever is
read from a file that was cut short, from its directory to the functions, ends where it does in the
whole file. There it ends at the end, which has been cut off (`Program.decode_truncated`).
-/

namespace TreeCode

open List Container

namespace Container.Reader

variable {α β : Type} {rd : Reader α} {f : α → Reader β}

/-- **A longer file is read in the same way**, and reading ends within the file that it was found
in. -/
def Extends (rd : Reader α) : Prop :=
  ∀ ⦃file start a finish⦄, rd file start = .ok (a, finish) → finish ≤ max start file.length ∧
    ∀ more, rd (file ++ more) start = .ok (a, finish)

namespace Extends

lemma bind (h : Extends rd) (hf : ∀ a, Extends (f a)) : Extends (rd >>= f) := by
  intro file start b finish hread
  obtain ⟨⟨a, middle⟩, hfirst, hr⟩ := bind_eq_ok.mp hread
  obtain ⟨hmiddle, hfirst⟩ := h hfirst
  obtain ⟨hfinish, hr⟩ := hf a hr
  refine ⟨by omega, fun more => ?_⟩
  rw [bind_apply, hfirst more]
  exact hr more

lemma pure (a : α) : Extends (Pure.pure a) := by
  intro file start b finish hread
  cases hread
  exact ⟨Nat.le_max_left .., fun _ => rfl⟩

lemma fail (e) : Extends (Reader.fail e : Reader α) := nofun

lemma position {f : Nat → Reader α} (h : ∀ start, Extends (f start)) :
    Extends (Reader.position >>= f) := fun _ start _ _ hread => h start hread

end Extends

lemma extends_take (count) : Extends (take count) := by
  intro file start a finish hread
  rw [take_apply] at hread
  split at hread
  · next hroom =>
    cases hread
    refine ⟨by omega, fun more => ?_⟩
    rw [take_apply, if_pos (by rw [length_append]; omega), drop_append_of_le_length (by omega),
      take_append_of_le_length (by rw [length_drop]; omega)]
  · cases hread

lemma extends_word : Extends word := (extends_take 4).bind fun _ => .pure _

lemma extends_size : Extends size := extends_word.bind fun _ => .pure _

lemma extends_text (count) : Extends (text count) := by
  refine .position fun start => (extends_take count).bind fun bytes => ?_
  split
  · exact .pure _
  · exact .fail _

lemma extends_items {rd : Nat → Reader α} (h : ∀ i, Extends (rd i)) :
    ∀ count index, Extends (items rd index count)
  | 0, _ => .pure _
  | count + 1, index => (h index).bind fun _ => (extends_items h count _).bind fun _ => .pure _

lemma extends_entry {name : String} {rd : Nat → Reader α} (h : ∀ n, Extends (rd n)) :
    Extends (entry name rd) := by
  refine extends_size.bind fun length => .position fun start => (h length).bind fun a =>
    .position fun finish => ?_
  split
  · exact .pure _
  · exact .fail _

lemma extends_function (length) : Extends (function length) := by
  refine .position fun start => extends_size.bind fun offset => ?_
  split
  · exact (Extends.fail _).bind fun _ => (extends_text _).bind fun _ => .pure _
  · exact (extends_text _).bind fun _ => .pure _

/-- The section of the functions, from its start on. -/
lemma extends_functions :
    Extends (do items (fun _ => entry "function" function) 0 (← size)) :=
  extends_size.bind fun count => extends_items (fun _ => extends_entry extends_function) count 0

/-- A file cut short, as far as it goes, has what the whole file has. -/
lemma Extends.follow {a b bytes more file rest start finish}
    (h : Extends rd) (hr : Reads rd bytes (· = a))
    (hs : Stands (file ++ rest) start (bytes ++ more))
    (hread : (rd >>= f) file start = .ok (b, finish)) :
    f a file (start + bytes.length) = .ok (b, finish)
      ∧ Stands (file ++ rest) (start + bytes.length) more := by
  obtain ⟨⟨a', middle⟩, hf, hread⟩ := bind_eq_ok.mp hread
  refine ⟨?_, hs.next⟩
  obtain ⟨pre, hfile, rfl⟩ := hs
  obtain ⟨_, hw, rfl⟩ := hr pre more
  rw [append_assoc, ← hfile, (h hf).2] at hw
  cases hw
  exact hread

end Container.Reader

namespace Program

open Reader

/-- **Every truncation of a program's file is refused**, whatever the resolver. -/
theorem decode_truncated {p : Program} {bytes : Bytes} (h : p.encode = .ok bytes)
    (resolve : Nat → String → Option Value) {file : Bytes} (hfile : file <+: bytes)
    (hne : file ≠ bytes) : ∃ e, decode resolve file = .error e := by
  cases hdecode : decode resolve file with
  | error e => exact ⟨e, rfl⟩
  | ok q =>
    exfalso
    obtain ⟨rest, hrest⟩ := hfile
    have hcut : file.length < bytes.length := by
      have hpos : rest ≠ [] := fun hnil => hne (by rw [← hrest, hnil, append_nil])
      have := length_pos_iff.mpr hpos
      rw [← hrest, length_append]
      omega
    obtain ⟨⟨_, hread⟩, -⟩ := read_of_decode hdecode
    cases written_of_encode h with
    | @file constants platform diagnostics functions code' constants' platform' diagnostics'
      functions' codeAt constantsAt platformAt diagnosticsAt functionsAt _ _ _ hfunctions _ _ _ _
      hfunctions' hcodeAt hconstantsAt hplatformAt hdiagnosticsAt hfunctionsAt =>
      -- The directory is read as in the whole file.
      have hs : Stands (file ++ rest) 4 _ := ⟨magic, hrest, rfl⟩
      obtain ⟨hread, hs⟩ := extends_word.follow (reads_word version) hs hread
      rw [if_neg (not_not_intro rfl)] at hread
      obtain ⟨hread, hs⟩ := extends_size.follow (reads_size hcodeAt) hs hread
      obtain ⟨hread, hs⟩ := extends_size.follow (reads_size hconstantsAt) hs hread
      obtain ⟨hread, hs⟩ := extends_size.follow (reads_size hplatformAt) hs hread
      obtain ⟨hread, hs⟩ := extends_size.follow (reads_size hdiagnosticsAt) hs hread
      obtain ⟨hread, hs⟩ := extends_size.follow (reads_size hfunctionsAt) hs hread
      -- Whatever the sections before hold, that of the functions is read at its place.
      obtain ⟨_, -, hread⟩ := bind_eq_ok.mp hread
      obtain ⟨_, -, hread⟩ := bind_eq_ok.mp hread
      obtain ⟨_, -, hread⟩ := bind_eq_ok.mp hread
      obtain ⟨_, -, hread⟩ := bind_eq_ok.mp hread
      obtain ⟨_, -, hread⟩ := bind_eq_ok.mp hread
      obtain ⟨⟨_, finish⟩, hlast, -⟩ := bind_eq_ok.mp hread
      obtain ⟨hfinish, hlast⟩ := extends_functions hlast
      have hstands := hs.next.next.next.next
      rw [length_of_header hcodeAt hconstantsAt hplatformAt hdiagnosticsAt hfunctionsAt] at hstands
      obtain ⟨before, hbytes, hbefore⟩ := hstands
      have hreads := reads_section hfunctions' (reads_functions _ 0 hfunctions)
      obtain ⟨_, hwhole, rfl⟩ := hreads before []
      rw [append_nil, ← hbytes, ← hbefore, hlast] at hwhole
      cases hwhole
      obtain ⟨count, hcount, hsection⟩ := bind_eq_ok.mp hfunctions'
      cases hsection
      have := length_sizeBytes hcount
      rw [← hrest, hbytes] at hcut
      simp only [length_append] at hcut hfinish
      omega

theorem decode_truncated_sample : ∃ bytes e, sample.encode = .ok bytes ∧
    bytes.dropLast ≠ bytes ∧ decode (fun _ _ => some .null) bytes.dropLast = .error e := by
  obtain ⟨bytes, hbytes⟩ : ∃ bytes, sample.encode = .ok bytes := exists_of_isOk (by decide +kernel)
  have hne : bytes.dropLast ≠ bytes := fun heq => by
    have := congrArg length heq
    rw [length_dropLast] at this
    have hnil : bytes = [] := length_eq_zero_iff.mp (by omega)
    cases hnil ▸ written_of_encode hbytes
  obtain ⟨e, he⟩ := decode_truncated hbytes (fun _ _ => some .null) (List.dropLast_prefix bytes) hne
  exact ⟨bytes, e, hbytes, hne, he⟩

end Program

end TreeCode
