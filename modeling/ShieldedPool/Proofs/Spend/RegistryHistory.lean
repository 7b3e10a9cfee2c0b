/-
What a registry of spends holds after any use of it.  Notes are prepared in
trees of any kind, hashes are registered and released by hand, in any order,
and a use that is refused leaves the registry as it was.  A use that is not
refused is an event, and a hash is registered exactly when the last event on it
registers it.  So a key at a leaf is prepared again only after its mark was
released, whatever tree it is proven in, and a note is only ever blocked by its
own spend.
-/
import Mathlib.Data.Set.Card
import ShieldedPool.Proofs.HashInputs
import ShieldedPool.Proofs.Spend.OneMark

namespace ShieldedPool.Spend

open Merkle (Archive feed)

/-- A use of a registry.  A note may be prepared in any tree. -/
inductive Use : Type 1
  | prepare {α : Type} [Merkle.Accumulator α] (tree : α) (note : Note)
  | register (hash : Felt)
  | release (hash : Felt)

/-- A use that was not refused. -/
inductive Event
  | prepared (note : Note) (witness : Witness)
  | registered (hash : Felt)
  | released (hash : Felt)

namespace Event

/-- The hash that the event is about. -/
def hash : Event → Felt
  | prepared _ witness => witness.nullifierHash
  | registered hash | released hash => hash

/-- The event leaves its hash registered. -/
def Registers : Event → Prop
  | prepared _ _ | registered _ => True
  | released _ => False

/-- The last event on a hash. -/
def lastOn (hash : Felt) (events : List Event) : Option Event :=
  (events.filter (·.hash = hash)).getLast?

variable {hash : Felt} {event : Event} {events : List Event}

theorem lastOn_append (events later : List Event) :
    lastOn hash (events ++ later) = (lastOn hash later).or (lastOn hash events) := by
  rw [lastOn, List.filter_append, List.getLast?_append]
  rfl

theorem lastOn_singleton :
    lastOn hash [event] = if event.hash = hash then some event else none := by
  by_cases hhash : event.hash = hash <;> simp [lastOn, hhash]

theorem mem_of_lastOn (hlast : lastOn hash events = some event) :
    event ∈ events ∧ event.hash = hash := by
  have hmem := List.mem_filter.1 (List.mem_of_getLast? hlast)
  exact ⟨hmem.1, of_decide_eq_true hmem.2⟩

/-- A prepared witness is under the mark of its note. -/
def Genuine : Event → Prop
  | prepared note witness => note.leafIndex = some witness.leafIndex ∧
      witness.nullifierHash = spendMark note.privateScalar witness.leafIndex
  | registered _ | released _ => True

end Event

/-- The events of some uses of a registry, and what they leave of it. -/
structure History where
  events : List Event
  registry : Registry

namespace Registry

/-- One use of the registry.  A refused one is no event. -/
def after (registry : Registry) : Use → History
  | @Use.prepare _ _ tree note =>
      match prepare registry note tree with
      | .ok (witness, registry) => ⟨[.prepared note witness], registry⟩
      | .error _ => ⟨[], registry⟩
  | .register hash =>
      match registry.begin hash with
      | .ok registry => ⟨[.registered hash], registry⟩
      | .error _ => ⟨[], registry⟩
  | .release hash =>
      ⟨if registry.contains hash then [.released hash] else [], registry.release hash⟩

/-- Uses of the registry one after the other. -/
def run (registry : Registry) : List Use → History
  | [] => ⟨[], registry⟩
  | use :: uses =>
      let first := registry.after use
      let rest := first.registry.run uses
      ⟨first.events ++ rest.events, rest.registry⟩

variable {registry : Registry} {use : Use} {hash : Felt}

/-- The hash is registered by its last event, or was before all of them. -/
def HeldAfter (registry : Registry) (events : List Event) (hash : Felt) : Prop :=
  match Event.lastOn hash events with
  | some event => event.Registers
  | none => registry.contains hash

theorem heldAfter_singleton {event : Event} :
    registry.HeldAfter [event] hash ↔
      if event.hash = hash then event.Registers else registry.contains hash := by
  rw [HeldAfter, Event.lastOn_singleton]
  by_cases hhash : event.hash = hash <;> simp [hhash]

theorem heldAfter_append {middle : Registry} {events later : List Event}
    (hmiddle : middle.contains hash ↔ registry.HeldAfter events hash) :
    registry.HeldAfter (events ++ later) hash ↔ middle.HeldAfter later hash := by
  simp only [HeldAfter, Event.lastOn_append]
  rcases Event.lastOn hash later with _ | event
  · exact hmiddle.symm
  · exact Iff.rfl

theorem release_of_absent (habsent : ¬ registry.contains hash) :
    registry.release hash = registry := by
  have hothers : ∀ other ∈ registry.inFlight, other ≠ hash := by
    rintro other hmem rfl
    exact habsent (contains_iff.2 hmem)
  rw [release, List.filter_eq_self.2]
  simpa using hothers

/-- What a use can come to: it registers the hash of its event, it releases a
registered hash, or it is refused. -/
inductive Outcome (registry : Registry) : History → Prop
  | registers {event : Event} {next : Registry} (hbegin : registry.begin event.hash = .ok next)
      (hregisters : event.Registers) (hgenuine : event.Genuine) :
      Outcome registry ⟨[event], next⟩
  | releases {hash : Felt} (hheld : registry.contains hash) :
      Outcome registry ⟨[.released hash], registry.release hash⟩
  | refused : Outcome registry ⟨[], registry⟩

theorem outcome_after (registry : Registry) (use : Use) :
    registry.Outcome (registry.after use) := by
  cases use with
  | prepare tree note =>
      rw [after]
      split
      · next witness next hprepare =>
          obtain ⟨hwitness, hbegin⟩ := prepare_eq_ok_iff.1 hprepare
          have hof := isOf_of_witnessIn hwitness
          exact .registers hbegin trivial ⟨hof.leafIndex, hof.mark⟩
      · exact .refused
  | register hash =>
      rw [after]
      split
      · next hbegin => exact .registers hbegin trivial trivial
      · exact .refused
  | release hash =>
      rw [after]
      by_cases hheld : registry.contains hash
      · rw [if_pos hheld]
        exact .releases hheld
      · rw [if_neg hheld, release_of_absent hheld]
        exact .refused

section Outcome

variable {history : History} (houtcome : registry.Outcome history)
include houtcome

/-- One use settles the hash of its event and no other. -/
theorem contains_outcome (hash : Felt) :
    history.registry.contains hash ↔ registry.HeldAfter history.events hash := by
  cases houtcome with
  | @registers event next hbegin hregisters _ =>
      rw [contains_begin_iff hbegin, heldAfter_singleton]
      by_cases hhash : event.hash = hash
      · simp [hhash, hregisters]
      · simp [hhash, Ne.symm hhash]
  | @releases other _ =>
      rw [contains_release_iff, heldAfter_singleton]
      by_cases hhash : other = hash
      · simp [Event.hash, Event.Registers, hhash]
      · simp [Event.hash, hhash, Ne.symm hhash]
  | refused => exact Iff.rfl

theorem nodup_outcome (hnodup : registry.inFlight.Nodup) : history.registry.inFlight.Nodup := by
  cases houtcome with
  | registers hbegin _ _ =>
      obtain ⟨hfree, rfl⟩ := begin_eq_ok_iff.1 hbegin
      refine List.nodup_cons.2 ⟨?_, hnodup⟩
      intro hmem
      rw [contains_iff.2 hmem] at hfree
      cases hfree
  | releases _ => exact hnodup.filter _
  | refused => exact hnodup

theorem genuine_outcome {event : Event} (hevent : event ∈ history.events) : event.Genuine := by
  cases houtcome with
  | registers _ _ hgenuine =>
      obtain rfl := List.mem_singleton.1 hevent
      exact hgenuine
  | releases _ =>
      obtain rfl := List.mem_singleton.1 hevent
      trivial
  | refused => cases hevent

/-- A use without an event leaves the registry as it was. -/
theorem registry_eq_of_refused (hrefused : history.events = []) :
    history.registry = registry := by
  cases houtcome with
  | registers _ _ _ => cases hrefused
  | releases _ => cases hrefused
  | refused => rfl

end Outcome

theorem contains_run (registry : Registry) (uses : List Use) (hash : Felt) :
    (registry.run uses).registry.contains hash ↔
      registry.HeldAfter (registry.run uses).events hash := by
  induction uses generalizing registry with
  | nil => exact Iff.rfl
  | cons use uses ih =>
      calc ((registry.after use).registry.run uses).registry.contains hash
          ↔ (registry.after use).registry.HeldAfter
              ((registry.after use).registry.run uses).events hash := ih _
        _ ↔ registry.HeldAfter ((registry.after use).events ++
              ((registry.after use).registry.run uses).events) hash :=
          (heldAfter_append (contains_outcome (registry.outcome_after use) hash)).symm

theorem nodup_run (hnodup : registry.inFlight.Nodup) (uses : List Use) :
    (registry.run uses).registry.inFlight.Nodup := by
  induction uses generalizing registry with
  | nil => exact hnodup
  | cons use uses ih => exact ih (nodup_outcome (registry.outcome_after use) hnodup)

theorem genuine_run {event : Event} {uses : List Use}
    (hevent : event ∈ (registry.run uses).events) : event.Genuine := by
  induction uses generalizing registry with
  | nil => cases hevent
  | cons use uses ih =>
      rcases List.mem_append.1 hevent with hfirst | hrest
      · exact genuine_outcome (registry.outcome_after use) hfirst
      · exact ih hrest

/-- A registry that holds each hash once is as large as the set of them. -/
theorem size_eq_ncard (hnodup : registry.inFlight.Nodup) :
    registry.size = {hash | registry.contains hash}.ncard := by
  have hset : {hash | registry.contains hash} = (registry.inFlight.toFinset : Set Felt) := by
    ext hash
    simp [contains_iff]
  rw [hset, Set.ncard_coe_finset, List.toFinset_card_of_nodup hnodup, size]

/-- A hash that was registered and no longer is has been released. -/
theorem released_of_run {uses : List Use} (hheld : registry.contains hash)
    (hfree : (registry.run uses).registry.contains hash = false) :
    Event.released hash ∈ (registry.run uses).events := by
  have hafter : ¬ registry.HeldAfter (registry.run uses).events hash := by
    rw [← contains_run, hfree]
    exact Bool.false_ne_true
  rw [HeldAfter] at hafter
  rcases hlast : Event.lastOn hash (registry.run uses).events with _ | event
  · rw [hlast] at hafter
    exact absurd hheld hafter
  · obtain ⟨hmem, rfl⟩ := Event.mem_of_lastOn hlast
    cases event with
    | prepared note witness => simp [hlast, Event.Registers] at hafter
    | registered hash => simp [hlast, Event.Registers] at hafter
    | released hash => exact hmem

/-- From the start, a hash is registered when its last event registers it. -/
theorem contains_run_empty_iff {uses : List Use} :
    (empty.run uses).registry.contains hash ↔
      ∃ event, Event.lastOn hash (empty.run uses).events = some event ∧ event.Registers := by
  rw [contains_run, HeldAfter]
  rcases Event.lastOn hash (empty.run uses).events with _ | event
  · simp [empty, contains]
  · simp

end Registry

section Preparations

variable {α β : Type} [Merkle.Accumulator α] [Merkle.Accumulator β] {tree : α} {later : β}
  {n₁ n₂ note : Note} {w₁ w₂ witness : Witness} {registry registry₁ registry₂ : Registry}

theorem markHash_of_witnessIn (hwitness : witnessIn tree note = .ok witness) :
    note.markHash = .ok witness.nullifierHash := by
  have hof := isOf_of_witnessIn hwitness
  rw [hof.mark, Note.markHash, Note.nullifier, Note.nullifier?, hof.leafIndex]
  rfl

theorem prepare_eq_duplicate_iff (hwitness : witnessIn tree note = .ok witness) :
    prepare registry note tree = .error (.duplicateSpend witness.nullifierHash) ↔
      registry.contains witness.nullifierHash := by
  rw [prepare, hwitness, ok_bind]
  rcases hbegin : registry.begin witness.nullifierHash with refusal | after
  · obtain ⟨hheld, rfl⟩ := Registry.begin_eq_error_iff.1 hbegin
    simp [hheld]
  · obtain ⟨hfree, rfl⟩ := Registry.begin_eq_ok_iff.1 hbegin
    simp [hfree]

/-- One key at one leaf has one mark, in whatever trees it is proven. -/
theorem mark_eq_of_same_key (hwitness₁ : witnessIn tree n₁ = .ok w₁)
    (hwitness₂ : witnessIn later n₂ = .ok w₂) (hscalar : n₁.privateScalar = n₂.privateScalar)
    (hleaf : n₁.leafIndex = n₂.leafIndex) : w₁.nullifierHash = w₂.nullifierHash := by
  have hmark := markHash_of_witnessIn hwitness₁
  have hmark' := markHash_of_witnessIn hwitness₂
  rw [Note.markHash, Note.nullifier, Note.nullifier?, hscalar, hleaf] at hmark
  exact Except.ok.inj (hmark.symm.trans hmark')

/-- Between two preparations of one key at one leaf the mark is released. -/
theorem released_between_preparations {uses : List Use}
    (hscalar : n₁.privateScalar = n₂.privateScalar) (hleaf : n₁.leafIndex = n₂.leafIndex)
    (hprepare₁ : prepare registry n₁ tree = .ok (w₁, registry₁))
    (hprepare₂ : prepare (registry₁.run uses).registry n₂ later = .ok (w₂, registry₂)) :
    w₁.nullifierHash = w₂.nullifierHash ∧
      Event.released w₁.nullifierHash ∈ (registry₁.run uses).events := by
  obtain ⟨hwitness₁, hbegin₁⟩ := prepare_eq_ok_iff.1 hprepare₁
  obtain ⟨hwitness₂, hbegin₂⟩ := prepare_eq_ok_iff.1 hprepare₂
  have hmark := mark_eq_of_same_key hwitness₁ hwitness₂ hscalar hleaf
  have hheld : registry₁.contains w₁.nullifierHash :=
    (Registry.contains_begin_iff hbegin₁).2 (.inl rfl)
  have hfree := (Registry.begin_eq_ok_iff.1 hbegin₂).1
  rw [← hmark] at hfree
  exact ⟨hmark, Registry.released_of_run hheld hfree⟩

end Preparations

/-- What a registry owes after the events.  It holds the hashes whose last event
registers them, each once, and a refused use leaves it as it was.  A note with a
witness is refused exactly while its mark is registered, and one key at one leaf
is prepared again only after its mark was released.  A refused note is blocked
by a registration by hand, by a spend of the same key at the same leaf, or by
one whose other inputs have the same nullifier or mark. -/
structure OneSpendPerMark (events : List Event) (registry : Registry) : Prop where
  registered_iff : ∀ hash, registry.contains hash ↔
    ∃ event, Event.lastOn hash events = some event ∧ event.Registers
  size_eq : registry.size = {hash | registry.contains hash}.ncard
  unchanged : ∀ use, (registry.after use).events = [] → (registry.after use).registry = registry
  refused_iff : ∀ {α : Type} [Merkle.Accumulator α] {tree : α} {note : Note} {witness : Witness},
    witnessIn tree note = .ok witness →
      note.markHash = .ok witness.nullifierHash ∧
        (prepare registry note tree = .error (.duplicateSpend witness.nullifierHash) ↔
          registry.contains witness.nullifierHash) ∧
        (registry.contains witness.nullifierHash = false →
          ∃ after, prepare registry note tree = .ok (witness, after))
  released : ∀ {α β : Type} [Merkle.Accumulator α] [Merkle.Accumulator β] {tree : α} {later : β}
    {n₁ n₂ : Note} {w₁ w₂ : Witness} {registry₁ registry₂ : Registry} {uses : List Use},
    n₁.privateScalar = n₂.privateScalar → n₁.leafIndex = n₂.leafIndex →
    prepare registry n₁ tree = .ok (w₁, registry₁) →
    prepare (registry₁.run uses).registry n₂ later = .ok (w₂, registry₂) →
      w₁.nullifierHash = w₂.nullifierHash ∧
        Event.released w₁.nullifierHash ∈ (registry₁.run uses).events
  blocked_by : ∀ {α : Type} [Merkle.Accumulator α] {tree : α} {note : Note} {witness : Witness},
    witnessIn tree note = .ok witness →
    prepare registry note tree = .error (.duplicateSpend witness.nullifierHash) →
      Event.lastOn witness.nullifierHash events = some (.registered witness.nullifierHash) ∨
        ∃ other earlier,
          Event.lastOn witness.nullifierHash events = some (.prepared other earlier) ∧
            ((other.privateScalar = note.privateScalar ∧ other.leafIndex = note.leafIndex) ∨
              MarksMeet other.privateScalar earlier.leafIndex note.privateScalar
                witness.leafIndex)

/-- A prepared spend that holds the mark of a note is of the same key at the same
leaf, or their inputs meet. -/
theorem same_key_or_marksMeet {α : Type} [Merkle.Accumulator α] {tree : α} {note other : Note}
    {witness earlier : Witness} (hwitness : witnessIn tree note = .ok witness)
    (hgenuine : (Event.prepared other earlier).Genuine)
    (hmark : earlier.nullifierHash = witness.nullifierHash) :
    (other.privateScalar = note.privateScalar ∧ other.leafIndex = note.leafIndex) ∨
      MarksMeet other.privateScalar earlier.leafIndex note.privateScalar witness.leafIndex := by
  have hof := isOf_of_witnessIn hwitness
  obtain ⟨hleaf, hearlier⟩ := hgenuine
  rw [hearlier, hof.mark] at hmark
  rcases mark_eq_or_marksMeet hmark with ⟨hscalar, hindex⟩ | hmeet
  · left
    refine ⟨hscalar, ?_⟩
    rw [hleaf, hof.leafIndex, hindex]
  · exact .inr hmeet

/-- After any run of preparations, registrations and releases, each key at each
leaf is spent once at a time. -/
theorem one_spend_per_mark (uses : List Use) :
    OneSpendPerMark (Registry.empty.run uses).events (Registry.empty.run uses).registry where
  registered_iff _ := Registry.contains_run_empty_iff
  size_eq := Registry.size_eq_ncard (Registry.nodup_run List.nodup_nil uses)
  unchanged use := Registry.registry_eq_of_refused (Registry.outcome_after _ use)
  refused_iff hwitness := ⟨markHash_of_witnessIn hwitness, prepare_eq_duplicate_iff hwitness,
    fun hfree => ⟨_, prepare_of_witnessIn hwitness hfree⟩⟩
  released := released_between_preparations
  blocked_by := by
    intro α _ tree note witness hwitness hrefused
    have hheld := (prepare_eq_duplicate_iff hwitness).1 hrefused
    obtain ⟨event, hlast, hregisters⟩ := Registry.contains_run_empty_iff.1 hheld
    obtain ⟨hmem, hhash⟩ := Event.mem_of_lastOn hlast
    cases event with
    | prepared other earlier =>
        exact .inr ⟨other, earlier, hlast,
          same_key_or_marksMeet hwitness (Registry.genuine_run hmem) hhash⟩
    | registered hash =>
        obtain rfl : hash = witness.nullifierHash := hhash
        exact .inl hlast
    | released hash => exact absurd hregisters id

/-- A note is prepared, refused in a tree that has grown since, released, and
prepared there. -/
theorem note_prepared_again_in_grown_tree :
    ∃ (note : Note) (w₁ w₂ : Witness) (registry₁ registry₂ : Registry),
      let tree := (feed (Archive.empty fourLevels) [note.commitment]).1
      let grown := (feed (Archive.empty fourLevels) [note.commitment, 9]).1
      prepare Registry.empty note tree = .ok (w₁, registry₁) ∧
        prepare registry₁ note grown = .error (.duplicateSpend w₁.nullifierHash) ∧
        prepare (registry₁.run [.release w₁.nullifierHash]).registry note grown =
          .ok (w₂, registry₂) ∧
        w₁.nullifierHash = w₂.nullifierHash ∧
        Event.released w₁.nullifierHash ∈
          (registry₁.run [.release w₁.nullifierHash]).events := by
  have hnonzero : (Note.mk 5 1 0 (some 0)).privateScalar ≠ 0 := by decide
  obtain ⟨x, y, hkey⟩ := Note.exists_publicKey hnonzero
  have hcommitment := Note.commitment_of_key hkey
  have hfits : [Note.commitment ⟨5, 1, 0, some 0⟩, 9].length ≤ fourLevels.capacity :=
    show 2 ≤ 2 ^ 4 by decide
  have hwitness₁ := witnessIn_padded rfl hkey (congrArg some hcommitment) (single_fits _)
  have hwitness₂ := witnessIn_padded rfl hkey (congrArg some hcommitment) hfits
  have hgrown : ∀ leaf, (feed (Archive.empty fourLevels) [leaf, 9]).1 =
      Archive.padded fourLevels [leaf, 9] := fun leaf => Archive.fst_feed_empty fourLevels [leaf, 9]
  rw [← feed_single] at hwitness₁
  rw [← hgrown] at hwitness₂
  have hprepare₁ : prepare Registry.empty _ _ = _ := prepare_of_witnessIn hwitness₁ rfl
  have hheld : (⟨[spendMark 1 0]⟩ : Registry).contains (spendMark 1 0) :=
    Registry.contains_iff.2 List.mem_cons_self
  have hfree : ((⟨[spendMark 1 0]⟩ : Registry).release (spendMark 1 0)).contains
      (spendMark 1 0) = false := by
    simp [Registry.release, Registry.contains]
  have hprepare₂ := prepare_of_witnessIn hwitness₂ hfree
  exact ⟨_, _, _, _, _, hprepare₁, (prepare_eq_duplicate_iff hwitness₂).2 hheld, hprepare₂,
    (one_spend_per_mark []).released rfl rfl hprepare₁ hprepare₂⟩

end ShieldedPool.Spend
