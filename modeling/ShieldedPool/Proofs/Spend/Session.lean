/-
A client at work.  It inserts leaves, prepares notes, registers hashes and
releases them in any order, and an act that is refused changes nothing.  The
tree only grows, and a registered hash stays registered until it is released.
-/
import ShieldedPool.Proofs.Merkle.PathBinding
import ShieldedPool.Proofs.Spend.Preparation

namespace ShieldedPool.Spend

/-- An act on the tree or the registry. -/
inductive Act
  | insert (leaf : Felt)
  | prepare (note : Note)
  | register (hash : Felt)
  | release (hash : Felt)

/-- A tree and the spends in flight. -/
structure Session (α : Type) where
  tree : α
  registry : Registry

namespace Session

variable {α : Type} [Merkle.Accumulator α]

def step (session : Session α) : Act → Session α
  | .insert leaf =>
      match Merkle.Accumulator.insert session.tree leaf with
      | .ok (tree, _) => { session with tree }
      | .error _ => session
  | .prepare note =>
      match prepare session.registry note session.tree with
      | .ok (_, registry) => { session with registry }
      | .error _ => session
  | .register hash =>
      match session.registry.begin hash with
      | .ok registry => { session with registry }
      | .error _ => session
  | .release hash => { session with registry := session.registry.release hash }

def run (session : Session α) (acts : List Act) : Session α := acts.foldl step session

/-- A hash leaves the registry only by its own release. -/
theorem contains_step {session : Session α} {hash : Felt} {act : Act}
    (hcontains : session.registry.contains hash) (hkept : act ≠ .release hash) :
    (session.step act).registry.contains hash := by
  rcases act with leaf | note | other | other
  · rw [step]
    split <;> exact hcontains
  · rw [step]
    split
    · next hprepare =>
        exact (Registry.contains_begin_iff (prepare_eq_ok_iff.1 hprepare).2).2 (.inr hcontains)
    · exact hcontains
  · rw [step]
    split
    · next hbegin => exact (Registry.contains_begin_iff hbegin).2 (.inr hcontains)
    · exact hcontains
  · refine Registry.contains_release_iff.2 ⟨?_, hcontains⟩
    rintro rfl
    exact hkept rfl

theorem contains_run {session : Session α} {hash : Felt} {acts : List Act}
    (hcontains : session.registry.contains hash) (hkept : .release hash ∉ acts) :
    (session.run acts).registry.contains hash := by
  induction acts generalizing session with
  | nil => exact hcontains
  | cons act acts ih =>
      rw [List.mem_cons, not_or] at hkept
      exact ih (contains_step hcontains (Ne.symm hkept.1)) hkept.2

/-- A hash that is registered twice has been released in between. -/
theorem released_of_begin_twice {registry registry₁ registry₂ : Registry} {hash : Felt}
    {tree : α} {acts : List Act} (hfirst : registry.begin hash = .ok registry₁)
    (hagain : ((Session.mk tree registry₁).run acts).registry.begin hash = .ok registry₂) :
    .release hash ∈ acts := by
  by_contra hkept
  have hregistered : registry₁.contains hash :=
    (Registry.contains_begin_iff hfirst).2 (.inl rfl)
  have hflight : ((Session.mk tree registry₁).run acts).registry.contains hash :=
    contains_run hregistered hkept
  rw [(Registry.begin_eq_ok_iff.1 hagain).1] at hflight
  cases hflight

variable {depth : Merkle.Depth} {holds : α → List Felt → Prop}

/-- An act adds at most a leaf behind the others. -/
theorem holds_step (hshows : Merkle.ShowsPadded depth holds) (session : Session α)
    {leaves : List Felt} (hholds : holds session.tree leaves)
    (hle : leaves.length ≤ depth.capacity) (act : Act) :
    ∃ more, holds (session.step act).tree (leaves ++ more) ∧
      (leaves ++ more).length ≤ depth.capacity := by
  have hsame : holds session.tree (leaves ++ []) ∧ (leaves ++ []).length ≤ depth.capacity := by
    rw [List.append_nil]
    exact ⟨hholds, hle⟩
  rcases act with leaf | note | other | other
  · rw [step]
    rcases Nat.lt_or_eq_of_le hle with hroom | hfull
    · obtain ⟨after, hinsert, hafter⟩ := hshows.accepts hholds hroom leaf
      rw [hinsert]
      refine ⟨[leaf], hafter, ?_⟩
      rw [List.length_append, List.length_singleton]
      exact hroom
    · rw [hshows.refuses hholds hfull leaf]
      exact ⟨[], hsame⟩
  · rw [step]
    split <;> exact ⟨[], hsame⟩
  · rw [step]
    split <;> exact ⟨[], hsame⟩
  · exact ⟨[], hsame⟩

theorem holds_run (hshows : Merkle.ShowsPadded depth holds) (session : Session α)
    {leaves : List Felt} (hholds : holds session.tree leaves)
    (hle : leaves.length ≤ depth.capacity) (acts : List Act) :
    ∃ more, holds (session.run acts).tree (leaves ++ more) ∧
      (leaves ++ more).length ≤ depth.capacity := by
  induction acts generalizing session leaves with
  | nil => exact ⟨[], by rwa [List.append_nil], by rwa [List.append_nil]⟩
  | cons act acts ih =>
      obtain ⟨more, hstep, hfits⟩ := holds_step hshows session hholds hle act
      obtain ⟨rest, hrun, hrest⟩ := ih _ hstep hfits
      rw [List.append_assoc] at hrun hrest
      exact ⟨more ++ rest, hrun, hrest⟩

end Session

end ShieldedPool.Spend
