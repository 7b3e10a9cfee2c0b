/-
A proof by a follower is never stale.  A follower proves one leaf at most: the
last one, if it was appended by the follower's own acts or was there for the
view that it started as, and no published state was taken over since.  An
insertion keeps the siblings that it meets, and these lead to the new root
whatever the frontier held; a state that is taken over drops them.
-/
import ShieldedPool.Proofs.Merkle.Reimport

namespace ShieldedPool.Merkle

namespace Follower

/-- The act replaces what the tree holds by a published state. -/
def Act.TakesOver : Act → Prop
  | .insert _ => False
  | .importState _ => True
  | .restoreHistory _ => False
  | .applyAccount _ => True

/-- No published state is taken over: the acts that would do so are refused. -/
def Undisturbed (tree : Follower) (acts : List Act) : Prop :=
  ∀ before act, before ++ [act] <+: acts → act.TakesOver →
    ∃ refusal, (tree.run before).perform act = .error refusal

/-- The leaf came to the index in the archive of a view or by an act of the
follower, and no published state was taken over since. -/
inductive OwnLeaf (depth : Depth) (origin : Origin) (acts : List Act) (index : Nat)
    (leaf : Felt) : Prop
  | viewed {fed : List Felt} {size : Nat} (horigin : origin = .view fed size)
      (hleaf : (feed (Archive.empty depth) fed).1.leaf? index = some leaf)
      (hsince : (origin.follower depth).Undisturbed acts)
  | appended {before rest : List Act} {after : Follower}
      (hacts : acts = before ++ .insert leaf :: rest)
      (hinsert : ((origin.follower depth).run before).insert leaf = .ok (after, index))
      (hsince : after.Undisturbed rest)

/-- An act adds the leaf that it appends to those that are one's own, and takes
them all away when it takes over a state. -/
def OwnAfter (tree : Follower) (act : Act) (own : Nat → Felt → Prop) (index : Nat)
    (leaf : Felt) : Prop :=
  (act = .insert leaf ∧ ∃ after, tree.insert leaf = .ok (after, index)) ∨
    own index leaf ∧ (act.TakesOver → ∃ refusal, tree.perform act = .error refusal)

theorem undisturbed_nil (tree : Follower) : tree.Undisturbed [] := by
  intro before act hinitial
  simp at hinitial

theorem undisturbed_concat_iff {tree : Follower} {acts : List Act} {act : Act} :
    tree.Undisturbed (acts ++ [act]) ↔
      tree.Undisturbed acts ∧
        (act.TakesOver → ∃ refusal, (tree.run acts).perform act = .error refusal) := by
  constructor
  · intro hsince
    constructor
    · intro before other hinitial
      exact hsince before other (hinitial.trans (List.prefix_append _ _))
    · exact hsince acts act (List.prefix_refl _)
  · rintro ⟨hsince, hlast⟩ before other hinitial htakes
    rcases List.prefix_concat_iff.1 hinitial with hwhole | hshorter
    · obtain ⟨rfl, hother⟩ := List.append_inj' hwhole rfl
      obtain rfl : other = act := List.head_eq_of_cons_eq hother
      exact hlast htakes
    · exact hsince before other hshorter htakes

section Own

variable {depth : Depth} {origin : Origin} {acts : List Act} {index : Nat} {leaf : Felt}

theorem run_of_insert {tree after : Follower} {before : List Act}
    (hinsert : (tree.run before).insert leaf = .ok (after, index)) (rest : List Act) :
    tree.run (before ++ .insert leaf :: rest) = after.run rest := by
  have haccepted : (tree.run before).perform (.insert leaf) = .ok after := by
    rw [perform, hinsert]
    rfl
  rw [run_append, run, List.foldl_cons, step_of_ok haccepted]
  rfl

/-- At the start only the leaves of a view are there. -/
theorem ownLeaf_nil_iff :
    OwnLeaf depth origin [] index leaf ↔
      ∃ fed size, origin = .view fed size ∧
        (feed (Archive.empty depth) fed).1.leaf? index = some leaf := by
  constructor
  · intro hown
    cases hown with
    | viewed horigin hleaf hsince => exact ⟨_, _, horigin, hleaf⟩
    | appended hacts hinsert hsince => simp at hacts
  · rintro ⟨fed, size, horigin, hleaf⟩
    exact .viewed horigin hleaf (undisturbed_nil _)

theorem ownLeaf_concat_iff {act : Act} :
    OwnLeaf depth origin (acts ++ [act]) index leaf ↔
      ((origin.follower depth).run acts).OwnAfter act (OwnLeaf depth origin acts)
        index leaf := by
  constructor
  · intro hown
    cases hown with
    | viewed horigin hleaf hsince =>
        obtain ⟨hbefore, hlast⟩ := undisturbed_concat_iff.1 hsince
        exact .inr ⟨.viewed horigin hleaf hbefore, hlast⟩
    | @appended before rest after hacts hinsert hsince =>
        -- the last act is the insertion itself, or it came later
        rcases List.eq_nil_or_concat rest with rfl | ⟨shorter, last, rfl⟩
        · obtain ⟨rfl, hact⟩ := List.append_inj' hacts rfl
          exact .inl ⟨List.head_eq_of_cons_eq hact, after, hinsert⟩
        · have hsplit : acts ++ [act] = (before ++ .insert leaf :: shorter) ++ [last] := by
            simpa using hacts
          rw [List.concat_eq_append] at hsince
          obtain ⟨rfl, hact⟩ := List.append_inj' hsplit rfl
          obtain rfl : act = last := List.head_eq_of_cons_eq hact
          obtain ⟨hbefore, hlast⟩ := undisturbed_concat_iff.1 hsince
          rw [run_of_insert hinsert]
          exact .inr ⟨.appended rfl hinsert hbefore, hlast⟩
  · rintro (⟨rfl, after, hinsert⟩ | ⟨hown, hlast⟩)
    · exact .appended rfl hinsert (undisturbed_nil after)
    · cases hown with
      | viewed horigin hleaf hsince =>
          exact .viewed horigin hleaf (undisturbed_concat_iff.2 ⟨hsince, hlast⟩)
      | @appended before rest after hacts hinsert hsince =>
          subst hacts
          rw [run_of_insert hinsert] at hlast
          refine .appended ?_ hinsert (undisturbed_concat_iff.2 ⟨hsince, hlast⟩)
          simp

end Own

section OwnAfter

variable {tree after : Follower} {own : Nat → Felt → Prop} {act : Act} {index : Nat}
  {leaf other : Felt}

theorem ownAfter_iff_of_refused {refusal : Failure}
    (hrefused : tree.perform act = .error refusal) :
    tree.OwnAfter act own index leaf ↔ own index leaf := by
  constructor
  · rintro (⟨rfl, after, hinsert⟩ | ⟨hown, -⟩)
    · rw [perform, hinsert] at hrefused
      cases hrefused
    · exact hown
  · intro hown
    exact .inr ⟨hown, fun _ => ⟨refusal, hrefused⟩⟩

theorem ownAfter_insert_iff (hroom : tree.nextIndex < tree.depth.capacity) :
    tree.OwnAfter (.insert leaf) own index other ↔
      index = tree.nextIndex ∧ other = leaf ∨ own index other := by
  rw [OwnAfter, insert_of_room hroom]
  constructor
  · rintro (⟨⟨⟩, after, hinsert⟩ | ⟨hown, -⟩)
    · cases hinsert
      exact .inl ⟨rfl, rfl⟩
    · exact .inr hown
  · rintro (⟨rfl, rfl⟩ | hown)
    · exact .inl ⟨rfl, _, rfl⟩
    · exact .inr ⟨hown, False.elim⟩

theorem ownAfter_restoreHistory_iff {older : List Felt} :
    tree.OwnAfter (.restoreHistory older) own index leaf ↔ own index leaf := by
  constructor
  · rintro (⟨⟨⟩, -⟩ | ⟨hown, -⟩)
    exact hown
  · intro hown
    exact .inr ⟨hown, False.elim⟩

theorem not_ownAfter_of_takesOver (haccepted : tree.perform act = .ok after)
    (htakes : act.TakesOver) : ¬ tree.OwnAfter act own index leaf := by
  rintro (⟨rfl, -⟩ | ⟨-, hrefused⟩)
  · exact htakes
  · obtain ⟨refusal, hrefused⟩ := hrefused htakes
    rw [haccepted] at hrefused
    cases hrefused

end OwnAfter

/-- The kept path leads from the leaf to the root. -/
structure LeadsFrom (tree : Follower) (latest : LatestLeaf) (leaf : Felt) : Prop where
  length_siblings : latest.siblings.length = tree.depth.levels
  foldPath_eq : foldPath leaf latest.siblings (pathBits tree.depth.levels latest.index) =
    tree.root

/-- A tree keeps a path exactly while the last leaf is one of `own`, and the path
leads from that leaf. -/
structure Tracks (tree : Follower) (own : Nat → Felt → Prop) : Prop where
  index_lt : ∀ {index leaf}, own index leaf → index < tree.nextIndex
  leads : ∀ {index leaf}, own index leaf → index + 1 = tree.nextIndex →
    ∃ latest, tree.latest = some latest ∧ latest.index = index ∧ tree.LeadsFrom latest leaf
  kept : ∀ {latest}, tree.latest = some latest →
    latest.index + 1 = tree.nextIndex ∧ ∃ leaf, own latest.index leaf

section Tracks

variable {tree : Follower} {own : Nat → Felt → Prop}

/-- What is kept depends on the leaves, the root and the path alone. -/
theorem Tracks.congr {after : Follower} {own' : Nat → Felt → Prop} (htracks : tree.Tracks own)
    (hown : ∀ index leaf, own' index leaf ↔ own index leaf) (hdepth : after.depth = tree.depth)
    (hroot : after.root = tree.root) (hnext : after.nextIndex = tree.nextIndex)
    (hlatest : after.latest = tree.latest) : after.Tracks own' := by
  obtain rfl : own' = own := funext fun index => funext fun leaf => propext (hown index leaf)
  constructor
  · intro index leaf hleaf
    rw [hnext]
    exact htracks.index_lt hleaf
  · intro index leaf hleaf hlast
    obtain ⟨latest, hkept, hindex, hlength, hfold⟩ := htracks.leads hleaf (hlast.trans hnext)
    rw [← hdepth] at hlength hfold
    exact ⟨latest, hlatest.trans hkept, hindex, hlength, hfold.trans hroot.symm⟩
  · intro latest hkept
    rw [hnext]
    exact htracks.kept (hlatest.symm.trans hkept)

/-- With no path kept there must be no leaf of one's own. -/
theorem tracks_of_latest_eq_none (hlatest : tree.latest = none)
    (hnone : ∀ index leaf, ¬ own index leaf) : tree.Tracks own where
  index_lt hown := absurd hown (hnone _ _)
  leads hown := absurd hown (hnone _ _)
  kept hkept := by
    rw [hlatest] at hkept
    cases hkept

/-- The appended leaf is the last one, and its path is kept. -/
theorem Tracks.grown (htracks : tree.Tracks own)
    (hlength : tree.frontier.length = tree.depth.levels) (leaf : Felt) :
    (tree.grown leaf).Tracks fun index other =>
      index = tree.nextIndex ∧ other = leaf ∨ own index other where
  index_lt := by
    rintro index other (⟨rfl, -⟩ | hown)
    · exact Nat.lt_succ_self _
    · exact Nat.lt_succ_of_lt (htracks.index_lt hown)
  leads := by
    rintro index other hown hlast
    obtain rfl : index = tree.nextIndex := Nat.succ.inj hlast
    rcases hown with ⟨-, rfl⟩ | hold
    · refine ⟨_, rfl, rfl, ?_, ?_⟩
      · exact (length_siblings_ascend _ _ _ _).trans hlength
      · have hfold := foldPath_ascend 0 tree.nextIndex other tree.frontier
        rwa [hlength] at hfold
    · exact absurd (htracks.index_lt hold) (Nat.lt_irrefl _)
  kept := by
    rintro latest ⟨⟩
    exact ⟨rfl, leaf, .inl ⟨rfl, rfl⟩⟩

/-- A step keeps the path of the last leaf, or drops it with all the others. -/
theorem Tracks.step (htracks : tree.Tracks own)
    (hlength : tree.frontier.length = tree.depth.levels) (act : Act) :
    (tree.step act).Tracks (tree.OwnAfter act own) := by
  rcases hperform : tree.perform act with refusal | after
  · rw [step_of_error hperform]
    exact htracks.congr (fun _ _ => ownAfter_iff_of_refused hperform) rfl rfl rfl rfl
  · rw [step_of_ok hperform]
    cases act with
    | insert leaf =>
        obtain ⟨hroom, rfl⟩ := perform_insert_eq_ok_iff.1 hperform
        exact (htracks.grown hlength leaf).congr (fun _ _ => ownAfter_insert_iff hroom)
          rfl rfl rfl rfl
    | importState snapshot =>
        obtain ⟨-, rfl⟩ := importState_eq_ok_iff.1 hperform
        exact tracks_of_latest_eq_none rfl fun _ _ => not_ownAfter_of_takesOver hperform trivial
    | restoreHistory older =>
        cases hperform
        exact htracks.congr (fun _ _ => ownAfter_restoreHistory_iff) rfl rfl rfl rfl
    | applyAccount account =>
        obtain ⟨-, rfl⟩ := perform_applyAccount_eq_ok_iff.1 hperform
        exact tracks_of_latest_eq_none rfl fun _ _ => not_ownAfter_of_takesOver hperform trivial

/-- The view of an archive keeps the path of the archive's last leaf. -/
theorem tracks_view (depth : Depth) (fed : List Felt) (size : Nat) :
    ((feed (Archive.empty depth) fed).1.follower size).Tracks fun index leaf =>
      (feed (Archive.empty depth) fed).1.leaf? index = some leaf := by
  rw [Archive.fst_feed_empty]
  have hle : (fed.take depth.capacity).length ≤ depth.capacity := List.length_take_le _ _
  generalize fed.take depth.capacity = leaves at hle ⊢
  simp only [Archive.leaf?_padded]
  rcases List.eq_nil_or_concat leaves with rfl | ⟨front, last, rfl⟩
  · apply tracks_of_latest_eq_none
    · rw [Archive.follower, Archive.latestLeaf, Archive.nextIndex_padded]
      rfl
    · simp
  · rw [List.concat_eq_append] at hle ⊢
    let view := (Archive.padded depth (front ++ [last])).follower size
    have hnext : view.nextIndex = front.length + 1 :=
      (Archive.nextIndex_padded _ _).trans (by simp)
    have hlatest : view.latest = some ⟨front.length,
        paddedSiblings (front ++ [last]) depth.levels front.length⟩ :=
      Archive.latestLeaf_padded_append depth front last
    have hroom : front.length < depth.capacity := by
      rw [List.length_append] at hle
      exact hle
    constructor
    · intro index leaf hleaf
      obtain ⟨hindex, -⟩ := List.getElem?_eq_some_iff.1 hleaf
      rw [hnext]
      simpa using hindex
    · intro index leaf hleaf hlast
      obtain rfl : index = front.length := Nat.succ.inj (hlast.trans hnext)
      obtain rfl : leaf = last := by simpa using hleaf.symm
      refine ⟨_, hlatest, rfl, length_paddedSiblings _ _ _, ?_⟩
      have hlead : (front ++ [leaf]).getD front.length 0 = leaf := by
        simp [List.getD_eq_getElem?_getD]
      have hfold : foldPath ((front ++ [leaf]).getD front.length 0) _ _ = _ :=
        foldPath_paddedSiblings hroom
      rw [hlead, ← Archive.root_padded] at hfold
      exact hfold
    · intro latest hkept
      obtain rfl := Option.some.inj (hlatest.symm.trans hkept)
      exact ⟨hnext.symm, last, by simp⟩

end Tracks

theorem tracks_run (depth : Depth) (origin : Origin) (acts : List Act) :
    ((origin.follower depth).run acts).Tracks (OwnLeaf depth origin acts) := by
  induction acts using List.reverseRecOn with
  | nil =>
      cases origin with
      | fresh size =>
          apply tracks_of_latest_eq_none rfl
          intro index leaf hown
          obtain ⟨_, _, ⟨⟩, _⟩ := ownLeaf_nil_iff.1 hown
      | view fed size =>
          refine (tracks_view depth fed size).congr ?_ rfl rfl rfl rfl
          intro index leaf
          rw [ownLeaf_nil_iff]
          constructor
          · rintro ⟨_, _, ⟨⟩, hleaf⟩
            exact hleaf
          · intro hleaf
            exact ⟨_, _, rfl, hleaf⟩
  | append_singleton acts act ih =>
      obtain ⟨hdepth, hsound⟩ := (origin.publishable depth).run acts
      have hlength : ((origin.follower depth).run acts).frontier.length =
          ((origin.follower depth).run acts).depth.levels := by
        rw [hdepth]
        exact hsound.length_frontier
      rw [run_concat]
      refine (ih.step hlength act).congr ?_ rfl rfl rfl rfl
      intro index leaf
      exact ownLeaf_concat_iff

section Prove

variable {tree : Follower} {index : UInt64} {own : Nat → Felt → Prop}

/-- The kept path is given out for its own index only. -/
theorem prove_eq_ok_iff {proof : Inclusion} :
    tree.prove index = .ok proof ↔
      index.toNat < tree.nextIndex ∧ ∃ latest, tree.latest = some latest ∧
        latest.index = index.toNat ∧
        proof = ⟨index, latest.siblings, pathBits tree.depth.levels index.toNat⟩ := by
  rw [prove]
  by_cases hlt : index.toNat < tree.nextIndex
  · rcases tree.latest with _ | latest
    · simp [hlt]
    · by_cases hindex : latest.index = index.toNat
      · simp [hlt, hindex, eq_comm]
      · simp [hlt, hindex]
  · simp [hlt]

theorem prove_of_lt (hlt : index.toNat < tree.nextIndex)
    (hother : ∀ proof, tree.prove index ≠ .ok proof) :
    tree.prove index = .error (.proofUnavailable index.toNat) := by
  rw [prove, if_pos hlt]
  rcases hlatest : tree.latest with _ | latest
  · rfl
  · have hindex : latest.index ≠ index.toNat := by
      intro hindex
      exact hother _ (prove_eq_ok_iff.2 ⟨hlt, latest, hlatest, hindex, rfl⟩)
    exact if_neg hindex

theorem Tracks.exists_proof_iff (htracks : tree.Tracks own) :
    (∃ proof, tree.prove index = .ok proof) ↔
      index.toNat + 1 = tree.nextIndex ∧ ∃ leaf, own index.toNat leaf := by
  constructor
  · rintro ⟨proof, hproof⟩
    obtain ⟨-, latest, hlatest, hindex, -⟩ := prove_eq_ok_iff.1 hproof
    rw [← hindex]
    exact htracks.kept hlatest
  · rintro ⟨hlast, leaf, hown⟩
    obtain ⟨latest, hlatest, hindex, -⟩ := htracks.leads hown hlast
    exact ⟨_, prove_eq_ok_iff.2 ⟨htracks.index_lt hown, latest, hlatest, hindex, rfl⟩⟩

theorem LeadsFrom.verifyStrict_eq {latest : LatestLeaf} {leaf : Felt}
    (hleads : tree.LeadsFrom latest leaf) :
    Inclusion.verifyStrict ⟨index, latest.siblings, pathBits tree.depth.levels latest.index⟩
        tree.depth.levels leaf tree.root = .ok true := by
  rw [Inclusion.verifyStrict, if_pos ⟨hleads.length_siblings, length_pathBits _ _⟩,
    hleads.foldPath_eq, beq_self_eq_true]

end Prove

/-- A tree proves the last leaf, if it is one of `own`, in its current state, and
says of every other index why it does not prove it. -/
structure ProvesLatest (tree : Follower) (own : Nat → Felt → Prop) : Prop where
  proves_iff : ∀ index : UInt64, (∃ proof, tree.prove index = .ok proof) ↔
    index.toNat + 1 = tree.nextIndex ∧ ∃ leaf, own index.toNat leaf
  current : ∀ (index : UInt64) (proof : Inclusion), tree.prove index = .ok proof →
    proof.leafIndex = index ∧ proof.pathIndex = .ok index ∧
      ∀ leaf, own index.toNat leaf →
        proof.verifyStrict tree.depth.levels leaf tree.root = .ok true
  absent : ∀ index : UInt64, tree.nextIndex ≤ index.toNat →
    tree.prove index = .error (.leafAbsent index.toNat tree.nextIndex)
  unavailable : ∀ index : UInt64, index.toNat < tree.nextIndex →
    ¬ (index.toNat + 1 = tree.nextIndex ∧ ∃ leaf, own index.toNat leaf) →
      tree.prove index = .error (.proofUnavailable index.toNat)

theorem Tracks.provesLatest {tree : Follower} {own : Nat → Felt → Prop}
    (htracks : tree.Tracks own) (hle : tree.nextIndex ≤ tree.depth.capacity) :
    tree.ProvesLatest own where
  proves_iff _ := htracks.exists_proof_iff
  current := by
    intro index proof hproof
    obtain ⟨hlast, -⟩ := htracks.exists_proof_iff.1 ⟨proof, hproof⟩
    obtain ⟨hlt, latest, hlatest, hindex, rfl⟩ := prove_eq_ok_iff.1 hproof
    have hroom : index.toNat < 2 ^ tree.depth.levels := Nat.lt_of_lt_of_le hlt hle
    refine ⟨rfl, Inclusion.pathIndex_eq_ok_iff.2 (bitsValue_pathBits hroom), ?_⟩
    intro leaf hown
    obtain ⟨other, hother, -, hleads⟩ := htracks.leads hown hlast
    obtain rfl := Option.some.inj (hlatest.symm.trans hother)
    rw [← hindex]
    exact hleads.verifyStrict_eq
  absent _ hge := if_neg (Nat.not_lt.2 hge)
  unavailable := by
    intro index hlt hother
    apply prove_of_lt hlt
    intro proof hproof
    exact hother (htracks.exists_proof_iff.1 ⟨proof, hproof⟩)

end Follower

/-- From a fresh follower or the view of an archive, whatever acts it has been
through, a follower proves the last leaf exactly while that leaf is its own,
and the proof is one in its current state. -/
theorem own_latest_leaf_proved (depth : Depth) (origin : Follower.Origin)
    (acts : List Follower.Act) :
    ((origin.follower depth).run acts).ProvesLatest (Follower.OwnLeaf depth origin acts) := by
  obtain ⟨hdepth, hsound⟩ := (origin.publishable depth).run acts
  apply (Follower.tracks_run depth origin acts).provesLatest
  rw [hdepth]
  exact hsound.nextIndex_le

end ShieldedPool.Merkle
