import Mathlib.Data.Finset.Card
import TreeCode.Proofs.Reachable

/-!
# Settling values

To settle a value is to resolve the streams in it to their ends: those among its elements and
properties, and those among the elements of its streams. A node that has been resolved is never
changed again, whatever runs later (`Heap.Spares`), so all of them are resolved in the end, and the
text of the value shows nothing as pending (`Machine.settle_completes_text`).

The details of errors are passed over, and a stream in them may be pending still.

The text of streams is cut off at the size of the heap, in length and in depth. Nothing that is
settled is cut off: no stream is inside itself, so a way through the value meets every node once at
most.
-/

namespace TreeCode

open Machine List

namespace Heap

/-- **A value is inside another**: it is met on a way through elements, properties and the nodes of
streams. The details of errors are not on the way. -/
inductive Inside (h : Heap) : Value → Value → Prop where
  | here (v) : Inside h v v
  | element {es e w} (he : e ∈ es) (hw : Inside h e w) :
      Inside h (.array es) w
  | property {xs p w} (hp : p ∈ xs)
      (hw : Inside h p.2 w) : Inside h (.object xs) w
  | head {id tail head w} (hc : h.streamCell id = .resolved (.cons head tail))
      (hw : Inside h head w) : Inside h (.stream id) w
  | tail {id tail head w} (hc : h.streamCell id = .resolved (.cons head tail))
      (hw : Inside h (.stream tail) w) : Inside h (.stream id) w

/-- **The value is settled**: the streams inside it are resolved to their ends. -/
inductive Settled (h : Heap) : Value → Prop where
  | inert {v} (hv : v.isInert = true) : Settled h v
  | array {es} (hes : ∀ e ∈ es, Settled h e) : Settled h (.array es)
  | object {xs} (hxs : ∀ p ∈ xs, Settled h p.2) : Settled h (.object xs)
  | empty {id} (hc : h.streamCell id = .resolved .empty) : Settled h (.stream id)
  | cons {id tail head} (hc : h.streamCell id = .resolved (.cons head tail))
      (hhead : Settled h head) (htail : Settled h (.stream tail)) : Settled h (.stream id)

variable {h h' : Heap} {id : StreamId} {node : Node} {u v w : Value}

lemma Inside.trans (hv : h.Inside v w) (hw : h.Inside w u) : h.Inside v u := by
  induction hv with
  | here => exact hw
  | element he _ ih => exact .element he (ih hw)
  | property hp _ ih => exact .property hp (ih hw)
  | head hc _ ih => exact .head hc (ih hw)
  | tail hc _ ih => exact .tail hc (ih hw)

/-! ## Nodes stay resolved -/

/-- A node that is not being forced is there. -/
lemma getElem?_of_streamCell {cell} (hc : h.streamCell id = cell)
    (hn : cell ≠ .forcing) : h.streams[id]? = some cell := by
  rw [streamCell] at hc
  cases hget : h.streams[id]? with
  | none =>
    rw [hget] at hc
    exact absurd hc.symm hn
  | some c =>
    rw [hget] at hc
    exact congrArg some hc

lemma Spares.resolved (hs : h.Spares h') (hc : h.streamCell id = .resolved node) :
    h'.streamCell id = .resolved node := by
  have hget := hs id _ (getElem?_of_streamCell hc (by simp)) (by simp)
  rw [streamCell, hget]
  rfl

lemma Settled.spares (hs : h.Spares h') (hv : h.Settled v) : h'.Settled v := by
  induction hv with
  | inert hv => exact .inert hv
  | array _ ih => exact .array ih
  | object _ ih => exact .object ih
  | empty hc => exact .empty (hs.resolved hc)
  | cons hc _ _ ihhead ihtail => exact .cons (hs.resolved hc) ihhead ihtail

lemma Settled.inside (hw : h.Inside v w) (hv : h.Settled v) : h.Settled w := by
  induction hw with
  | here => exact hv
  | element he _ ih =>
    cases hv with
    | inert hv => cases hv
    | array hes => exact ih (hes _ he)
  | property hp _ ih =>
    cases hv with
    | inert hv => cases hv
    | object hxs => exact ih (hxs _ hp)
  | head hc _ ih =>
    cases hv with
    | inert hv => cases hv
    | empty hc' => cases hc.symm.trans hc'
    | cons hc' hhead _ =>
      cases hc.symm.trans hc'
      exact ih hhead
  | tail hc _ ih =>
    cases hv with
    | inert hv => cases hv
    | empty hc' => cases hc.symm.trans hc'
    | cons hc' _ htail =>
      cases hc.symm.trans hc'
      exact ih htail

lemma Settled.resolved (hv : h.Settled (.stream id)) :
    ∃ node, h.streamCell id = .resolved node := by
  cases hv with
  | inert hv => cases hv
  | empty hc => exact ⟨_, hc⟩
  | cons hc _ _ => exact ⟨_, hc⟩

end Heap

/-! ## Settling resolves -/

namespace Machine

variable {S : Setting} {m m' : Machine} {id : StreamId} {node : Node}

lemma produce_resolves : ∀ {fuel s m m'},
    m.heap.streams[id]? = some .forcing → produce S fuel id s m = some (.ok node, m') →
    m'.heap.streamCell id = .resolved node
  | 0, _, _, _, _, h => by simp [produce] at h
  | fuel + 1, s, m, m', hf, h => by
    have hspares : ∀ {r m₁}, perform S fuel .produce s.produce m = some (r, m₁) →
        m₁.heap.streams[id]? = some .forcing := fun hp =>
      ((restores S fuel).perform trivial
        (Job.handles_of_forall (Q := fun _ => True) (fun _ => trivial) (fun _ => trivial) _)
        hp).2.streams id _ hf (by simp)
    simp only [produce] at h
    split at h
    · cases h
    · next hp => exact produce_resolves (hspares hp) h
    · next hp =>
      cases h
      obtain ⟨hlt, -⟩ := Array.getElem?_eq_some_iff.mp (hspares hp)
      show (Option.getD _ _ : StreamCell) = _
      rw [setStream, Heap.setStream, Array.getElem?_setIfInBounds_self_of_lt hlt]
      rfl
    · cases h

lemma force_resolves {fuel} (h : force S fuel id m = some (.ok node, m')) :
    m'.heap.streamCell id = .resolved node := by
  cases fuel with
  | zero => simp [force] at h
  | succ fuel =>
    simp only [force] at h
    split at h
    · next heq =>
      cases h
      exact heq
    · cases h
    · cases h
    · next s heq =>
      refine produce_resolves ?_ h
      obtain ⟨hlt, -⟩ := Array.getElem?_eq_some_iff.mp (Heap.getElem?_of_streamCell heq (by simp))
      exact Array.getElem?_setIfInBounds_self_of_lt hlt

/-- **A stream whose elements are collected is settled** as soon as they are. -/
theorem settled_of_collect : ∀ {fuel id found es m m'},
    collect S fuel id found m = some (.ok es, m') → ∃ vs, es = found.reverse ++ vs ∧
      ∀ h, m'.heap.Spares h → (∀ v ∈ vs, h.Settled v) → h.Settled (.stream id)
  | 0, _, _, _, _, _, h => by simp [collect] at h
  | fuel + 1, id, found, es, m, m', h => by
    simp only [collect] at h
    split at h
    · cases h
    · next m₁ hforce =>
      cases h
      exact ⟨[], by simp, fun h hs _ => .empty (hs.resolved (force_resolves hforce))⟩
    · next head tail m₁ hforce =>
      have hspares : m₁.heap.Spares m'.heap :=
        ((restores S fuel).collect trivial (fun _ _ _ _ => trivial) h).2.streams
      obtain ⟨vs, rfl, hsettled⟩ := settled_of_collect h
      refine ⟨head :: vs, by simp, fun h hs hall => ?_⟩
      rw [forall_mem_cons] at hall
      exact .cons ((hspares.trans hs).resolved (force_resolves hforce)) hall.1
        (hsettled h hs hall.2)
    · cases h

/-- **Values that have been settled are settled.** -/
theorem settled_of_settle : ∀ {fuel values m m'},
    settle S fuel values m = some (.ok (), m') → ∀ v ∈ values, m'.heap.Settled v
  | 0, _, _, _, h => by simp [settle] at h
  | fuel + 1, [], _, _, _ => forall_mem_nil _
  | fuel + 1, v :: rest, m, m', h => by
    rw [forall_mem_cons]
    cases v with
    | array es =>
      have hall :=
        forall_mem_append.mp (settled_of_settle (show settle S fuel (es ++ rest) m = _ from h))
      exact ⟨.array hall.1, hall.2⟩
    | object xs =>
      have hall := forall_mem_append.mp
        (settled_of_settle (show settle S fuel (Entries.values xs ++ rest) m = _ from h))
      exact ⟨.object fun p hp => hall.1 _ (mem_map_of_mem hp), hall.2⟩
    | stream id =>
      simp only [settle] at h
      split at h
      · cases h
      · next es m₁ hcollect =>
        have hspares : m₁.heap.Spares m'.heap :=
          ((restores S fuel).settle trivial (fun _ _ _ _ => trivial) h).2.streams
        obtain ⟨vs, rfl, hsettled⟩ := settled_of_collect hcollect
        have hall := forall_mem_append.mp (settled_of_settle h)
        exact ⟨hsettled _ hspares hall.1, hall.2⟩
      · cases h
    | _ => exact ⟨.inert rfl, settled_of_settle (show settle S fuel rest m = _ from h)⟩

end Machine

/-! ## Complete texts -/

namespace Value

variable {f g : StreamId → String}

lemma textsWith_congr : ∀ {vs}, (∀ v ∈ vs, v.textWith f = v.textWith g) →
    textsWith f vs = textsWith g vs
  | [], _ => rfl
  | v :: vs, h => by
    rw [forall_mem_cons] at h
    rw [textsWith, textsWith, h.1, textsWith_congr h.2]

lemma entryTextsWith_congr : ∀ {xs}, (∀ p ∈ xs, p.2.textWith f = p.2.textWith g) →
    entryTextsWith f xs = entryTextsWith g xs
  | [], _ => rfl
  | (key, v) :: xs, h => by
    rw [forall_mem_cons] at h
    rw [entryTextsWith, entryTextsWith, h.1, entryTextsWith_congr h.2]

end Value

namespace Heap

variable {h : Heap} {id tail : StreamId} {v head : Value}

/-- The text of a stream with a marker of choice for what is pending. -/
def markedWithin (h : Heap) (marker : String) : Nat → StreamId → String
  | 0, _ => "stream [" ++ commaList [marker] ++ "]"
  | depth + 1, id =>
    let (elements, more) := h.forced id
    let texts := Value.textsWith (h.markedWithin marker depth) elements
    "stream [" ++ commaList (texts ++ if more then [marker] else []) ++ "]"

/-- No stream that is settled is inside itself. -/
lemma Settled.acyclic (hv : h.Settled v) : ∀ id, h.Inside v (.stream id) → ∀ head tail,
    h.streamCell id = .resolved (.cons head tail) →
    ¬h.Inside head (.stream id) ∧ ¬h.Inside (.stream tail) (.stream id) := by
  induction hv with
  | inert hv =>
    intro id hin
    cases hin with
    | here => cases hv
    | _ => cases hv
  | array _ ih =>
    intro id hin
    cases hin with
    | element he hw => exact ih _ he id hw
  | object _ ih =>
    intro id hin
    cases hin with
    | property hp hw => exact ih _ hp id hw
  | empty hc =>
    intro id hin head tail hc'
    cases hin with
    | here => cases hc.symm.trans hc'
    | head hc' _ => cases hc.symm.trans hc'
    | tail hc' _ => cases hc.symm.trans hc'
  | cons hc _ _ ihhead ihtail =>
    intro id hin head tail hc'
    cases hin with
    | here =>
      -- A way back would lead to the stream from its own head or tail, where the claim is known.
      cases hc.symm.trans hc'
      exact ⟨fun hback => (ihhead _ hback _ _ hc).1 hback, fun hback =>
        (ihtail _ hback _ _ hc).2 hback⟩
    | head hc'' hw =>
      cases hc.symm.trans hc''
      exact ihhead id hw head tail hc'
    | tail hc'' hw =>
      cases hc.symm.trans hc''
      exact ihtail id hw head tail hc'

/-- **The nodes of a settled stream are shown to the end**, within a number of nodes that has all of
those inside it. The streams inside its elements do with one less. -/
theorem Settled.forcedWithin (hv : h.Settled v) : ∀ {id}, v = .stream id → ∀ U : Finset StreamId,
    (∀ i, h.Inside v (.stream i) → i ∈ U) → ∃ es,
      (∀ n, U.card ≤ n → h.forcedWithin n id = (es, false)) ∧
      ∀ e ∈ es, h.Inside v e ∧ h.Settled e ∧ ∀ i, h.Inside e (.stream i) → i ∈ U.erase id := by
  induction hv with
  | inert hv =>
    rintro id rfl
    cases hv
  | array => exact nofun
  | object => exact nofun
  | @empty id hc =>
    rintro _ ⟨⟩ U hU
    refine ⟨[], fun n hn => ?_, forall_mem_nil _⟩
    have hpos := Finset.card_pos.mpr ⟨id, hU id (.here _)⟩
    cases n with
    | zero => omega
    | succ n => rw [Heap.forcedWithin, peek?, hc]
  | @cons id tail head hc hhead htail _ ihtail =>
    rintro _ ⟨⟩ U hU
    obtain ⟨hfirst, hlater⟩ := (Settled.cons hc hhead htail).acyclic id (.here _) head tail hc
    have hUhead : ∀ i, h.Inside head (.stream i) → i ∈ U.erase id := fun i hi =>
      Finset.mem_erase.mpr ⟨fun heq => hfirst (heq ▸ hi), hU i (.head hc hi)⟩
    have hUtail : ∀ i, h.Inside (.stream tail) (.stream i) → i ∈ U.erase id := fun i hi =>
      Finset.mem_erase.mpr ⟨fun heq => hlater (heq ▸ hi), hU i (.tail hc hi)⟩
    obtain ⟨es, hes, hall⟩ := ihtail rfl _ hUtail
    refine ⟨head :: es, fun n hn => ?_, forall_mem_cons.mpr ⟨⟨.head hc (.here _), hhead, hUhead⟩,
      fun e he => ?_⟩⟩
    · have hcard := Finset.card_erase_add_one (hU id (.here _))
      cases n with
      | zero => omega
      | succ n =>
        rw [Heap.forcedWithin, peek?, hc]
        dsimp only
        rw [hes n (by omega)]
    · obtain ⟨hin, hsettled, hinside⟩ := hall e he
      exact ⟨.tail hc hin, hsettled, fun i hi => Finset.mem_of_mem_erase (hinside i hi)⟩

/-- The text of no error inside the value depends on streams. -/
def ErrorsPlain (h : Heap) (v : Value) : Prop :=
  ∀ kind details trace, h.Inside v (.error kind details trace) → ∀ f g,
    (Value.error kind details trace).textWith f = (Value.error kind details trace).textWith g

lemma ErrorsPlain.inside {w} (hv : h.ErrorsPlain v) (hw : h.Inside v w) : h.ErrorsPlain w :=
  fun kind details trace he => hv kind details trace (hw.trans he)

/-- **Nothing in the text of a settled value stands for what is pending.** The induction is on the
depth to which streams are shown, with the nodes left that may still be met. -/
theorem Settled.textWith_markedWithin (a b) : ∀ n {v},
    h.Settled v → h.ErrorsPlain v → ∀ U : Finset StreamId, (∀ i, h.Inside v (.stream i) → i ∈ U) →
    U.card ≤ n → U.card ≤ h.streams.size →
    v.textWith (h.markedWithin a n) = v.textWith (h.markedWithin b n)
  | n, v, hv, hplain, U, hU, hn, hsize => by
    have hstream : ∀ {v id}, h.Settled v → v = .stream id → h.ErrorsPlain v →
        (∀ i, h.Inside v (.stream i) → i ∈ U) → h.markedWithin a n id = h.markedWithin b n id := by
      intro v id hv hid hplain hU
      obtain ⟨es, hes, hall⟩ := hv.forcedWithin hid U hU
      have hcard := Finset.card_erase_add_one (hU id (hid ▸ .here _))
      have hforced : h.forced id = (es, false) := hes _ (by omega)
      cases n with
      | zero => omega
      | succ n =>
        have htexts : Value.textsWith (h.markedWithin a n) es
            = Value.textsWith (h.markedWithin b n) es := by
          refine Value.textsWith_congr fun e he => ?_
          obtain ⟨hin, hsettled, hinside⟩ := hall e he
          exact textWith_markedWithin a b n hsettled (hplain.inside hin) _ hinside (by omega)
            (by omega)
        simp only [markedWithin, hforced, htexts, Bool.false_eq_true, if_false]
    induction hv with
    | @inert v hv =>
      cases v with
      | error kind details trace => exact hplain kind details trace (.here _) _ _
      | array => cases hv
      | object => cases hv
      | stream => cases hv
      | _ => rfl
    | @array es _ ih =>
      have htexts : Value.textsWith (h.markedWithin a n) es = Value.textsWith
        (h.markedWithin b n) es :=
        Value.textsWith_congr fun e he => ih e he (hplain.inside (.element he (.here _)))
          fun i hi => hU i (.element he hi)
      exact congrArg (fun texts => "[" ++ commaList texts ++ "]") htexts
    | @object xs _ ih =>
      have htexts : Value.entryTextsWith (h.markedWithin a n) xs
          = Value.entryTextsWith (h.markedWithin b n) xs :=
        Value.entryTextsWith_congr fun p hp => ih p hp (hplain.inside (.property hp (.here _)))
          fun i hi => hU i (.property hp hi)
      exact congrArg (fun texts => "\x7b" ++ commaList texts ++ "\x7d") htexts
    | empty hc => exact hstream (.empty hc) rfl hplain hU
    | cons hc hhead htail => exact hstream (.cons hc hhead htail) rfl hplain hU

lemma markedWithin_dots : ∀ depth, h.markedWithin "..." depth = h.streamTextWithin depth
  | 0 => rfl
  | depth + 1 => by
    funext id
    rw [markedWithin, streamTextWithin, markedWithin_dots depth]

end Heap

/-- The text of a value with a marker of choice for what is pending. -/
def Value.markedText (h : Heap) (marker : String) (v : Value) : String :=
  v.textWith (h.markedWithin marker (h.streams.size + 1))

/-- With dots for what is pending it is the text of the value. -/
lemma Value.markedText_dots (h : Heap) (v : Value) : v.markedText h "..." = v.text h := by
  rw [markedText, Heap.markedWithin_dots]
  rfl

/-- **Settling completes the text.** Let a value have been settled. Every stream inside it, but for
the details of errors, is resolved, and shown to its end. If the errors inside the value show no
streams, its text is the same whatever marker stands for what is pending, so there is none in it. -/
theorem Machine.settle_completes_text {S : Setting} {fuel : Nat} {v : Value} {m m' : Machine}
    (hsettle : settle S fuel [v] m = some (.ok (), m')) :
    (∀ id, m'.heap.Inside v (.stream id) → (∃ node, m'.heap.streamCell id = .resolved node) ∧
      ∃ elements, m'.heap.forced id = (elements, false)) ∧
    (m'.heap.ErrorsPlain v → ∀ marker, v.markedText m'.heap marker = v.text m'.heap) := by
  have hv : m'.heap.Settled v := settled_of_settle hsettle v mem_cons_self
  have hbound : ∀ id, m'.heap.Inside v (.stream id) → id ∈ Finset.range m'.heap.streams.size := by
    intro id hin
    obtain ⟨node, hc⟩ := (hv.inside hin).resolved
    have hget := Heap.getElem?_of_streamCell hc (by simp)
    exact Finset.mem_range.mpr (Array.getElem?_eq_some_iff.mp hget).1
  refine ⟨fun id hin => ⟨(hv.inside hin).resolved, ?_⟩, fun hplain marker => ?_⟩
  · obtain ⟨es, hes, -⟩ := (hv.inside hin).forcedWithin rfl _ fun i hi => hbound i (hin.trans hi)
    exact ⟨es, hes _ (by rw [Finset.card_range]; omega)⟩
  · rw [← Value.markedText_dots]
    exact hv.textWith_markedWithin marker "..." _ hplain _ hbound (by rw [Finset.card_range]; omega)
      (by rw [Finset.card_range])

/-- A stream of one element, in an array, is resolved and shown with the element. -/
theorem Machine.settle_completes_text_listed : ∃ m',
    settle ⟨{}, {}, {}⟩ 20 [.array [.stream 0]]
      { heap := { streams := #[.pending (.listed [.ofNat 1] none)] } } = some (.ok (), m') ∧
    (∃ elements, m'.heap.forced 0 = (elements, false)) ∧
    (Value.array [.stream 0]).text m'.heap = "[stream [1]]" := by
  have hsettles : (settle ⟨{}, {}, {}⟩ 20 [.array [.stream 0]]
      { heap := { streams := #[.pending (.listed [.ofNat 1] none)] } }).any (fun r =>
        r.1.toBool && (Value.array [.stream 0]).text r.2.heap == "[stream [1]]") = true := by
    decide +kernel
  obtain ⟨⟨r, m'⟩, hsettle, htest⟩ := (Option.any_eq_true _ _).mp hsettles
  obtain ⟨hok, htext⟩ := Bool.and_eq_true_iff.mp htest
  cases r with
  | error e => cases hok
  | ok u =>
    obtain ⟨hinside, -⟩ := settle_completes_text hsettle
    exact ⟨m', hsettle, (hinside 0 (.element mem_cons_self (.here _))).2, beq_iff_eq.mp htext⟩

/-- The stream of one element in the details of an error is not resolved. -/
theorem Machine.settled_error_pending :
    let m : Machine := { heap := { streams := #[.pending (.listed [.ofNat 1] none)] } }
    settle ⟨{}, {}, {}⟩ 2 [.error "e" [("s", .stream 0)] []] m = some (.ok (), m) ∧
      (Value.error "e" [("s", .stream 0)] []).text m.heap
        = "Error \x7berror: \"e\", details: \x7bs: stream [...]\x7d\x7d" := by
  exact ⟨rfl, by decide +kernel⟩

end TreeCode
