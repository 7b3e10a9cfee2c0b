/-
What a climb hashes.  Every step of a climb hashes one pair of children.  From
the root down, two climbs that turn alike and end at one root hash the same
pairs, or some way below the root two different pairs have one node.  Held
against the climb that the tree itself makes, this says which node a climb
started from and which siblings it was given, however many steps it took.
-/
import ShieldedPool.Proofs.Merkle.ArchiveTree

namespace ShieldedPool.Merkle

/-- The pairs of children that a climb hashes, from the root down. -/
def trail : Felt → List (Felt × Bool) → List (Felt × Felt)
  | _, [] => []
  | current, step :: steps => trail (climb current step) steps ++ [childPair current step]

@[simp] theorem length_trail (current : Felt) (steps : List (Felt × Bool)) :
    (trail current steps).length = steps.length := by
  induction steps generalizing current with
  | nil => rfl
  | cons step steps ih => simp [trail, ih]

/-- The last steps of a climb hash the pairs next to the root. -/
theorem trail_append (current : Felt) (low high : List (Felt × Bool)) :
    trail current (low ++ high) =
      trail (low.foldl climb current) high ++ trail current low := by
  induction low generalizing current with
  | nil => simp [trail]
  | cons step low ih =>
      rw [List.cons_append, trail, trail, ih, List.foldl_cons, List.append_assoc]

/-- Equally far below the root, two different pairs of children have one node. -/
def TrailsMeet (pairs pairs' : List (Felt × Felt)) : Prop :=
  ∃ (below : Nat) (pair pair' : Felt × Felt),
    pairs[below]? = some pair ∧ pairs'[below]? = some pair' ∧
      pair ≠ pair' ∧ node pair.1 pair.2 = node pair'.1 pair'.2

theorem TrailsMeet.append {pairs pairs' : List (Felt × Felt)}
    (hmeet : TrailsMeet pairs pairs') (lower lower' : List (Felt × Felt)) :
    TrailsMeet (pairs ++ lower) (pairs' ++ lower') := by
  obtain ⟨below, pair, pair', hpair, hpair', hcollision⟩ := hmeet
  have hshort := (List.getElem?_eq_some_iff.1 hpair).1
  have hshort' := (List.getElem?_eq_some_iff.1 hpair').1
  refine ⟨below, pair, pair', ?_, ?_, hcollision⟩
  · rwa [List.getElem?_append_left hshort]
  · rwa [List.getElem?_append_left hshort']

theorem trailsMeet_last {pairs pairs' : List (Felt × Felt)} {pair pair' : Felt × Felt}
    (hlength : pairs.length = pairs'.length) (hne : pair ≠ pair')
    (hnode : node pair.1 pair.2 = node pair'.1 pair'.2) :
    TrailsMeet (pairs ++ [pair]) (pairs' ++ [pair']) := by
  refine ⟨pairs.length, pair, pair', ?_, ?_, hne, hnode⟩
  · exact List.getElem?_concat_length
  · rw [hlength]
    exact List.getElem?_concat_length

/-- What is hashed next to the root by both does not meet. -/
theorem not_trailsMeet_append (pairs lower : List (Felt × Felt)) :
    ¬ TrailsMeet pairs (pairs ++ lower) := by
  rintro ⟨below, pair, pair', hpair, hpair', hne, -⟩
  have hshort := (List.getElem?_eq_some_iff.1 hpair).1
  rw [List.getElem?_append_left hshort, hpair] at hpair'
  exact hne (Option.some.inj hpair')

theorem eq_of_childPair_eq {current current' : Felt} {step step' : Felt × Bool}
    (hside : step.2 = step'.2) (hpair : childPair current step = childPair current' step') :
    current = current' ∧ step = step' := by
  obtain ⟨sibling, side⟩ := step
  obtain ⟨sibling', side'⟩ := step'
  obtain rfl : side = side' := hside
  cases side
  · exact ⟨congrArg Prod.fst hpair, congrArg (·, false) (congrArg Prod.snd hpair)⟩
  · exact ⟨congrArg Prod.snd hpair, congrArg (·, true) (congrArg Prod.fst hpair)⟩

/-- Climbs that turn alike and end at one root start at one value and pass the
same siblings, or their trails meet. -/
theorem eq_or_trailsMeet {steps steps' : List (Felt × Bool)} {start start' : Felt}
    (hsides : steps.map Prod.snd = steps'.map Prod.snd)
    (hroot : steps.foldl climb start = steps'.foldl climb start') :
    (start = start' ∧ steps = steps') ∨ TrailsMeet (trail start steps) (trail start' steps') := by
  -- equal nodes above a step leave its pair as the only one that can differ
  induction steps generalizing steps' start start' with
  | nil =>
      obtain rfl : steps' = [] := List.map_eq_nil_iff.1 hsides.symm
      exact .inl ⟨hroot, rfl⟩
  | cons step steps ih =>
      cases steps' with
      | nil => simp at hsides
      | cons step' steps' =>
          rw [List.map_cons, List.map_cons, List.cons.injEq] at hsides
          rcases ih hsides.2 hroot with ⟨hnode, hrest⟩ | hmeet
          · by_cases hpair : childPair start step = childPair start' step'
            · left
              obtain ⟨hstart, hstep⟩ := eq_of_childPair_eq hsides.1 hpair
              exact ⟨hstart, congrArg₂ _ hstep hrest⟩
            · right
              have hlength : (trail (climb start step) steps).length =
                  (trail (climb start' step') steps').length := by
                rw [length_trail, length_trail, hrest]
              rw [← node_childPair, ← node_childPair start'] at hnode
              exact trailsMeet_last hlength hpair hnode
          · right
            exact hmeet.append _ _

section Padded

variable (leaves : List Felt) (index : Nat)

/-- The siblings and sides of some steps along the path of an index. -/
def paddedSteps (height count : Nat) : List (Felt × Bool) :=
  (List.range' height count).map fun height =>
    (paddedNode leaves height ((index >>> height) ^^^ 1), isRightChild index height)

@[simp] theorem length_paddedSteps (height count : Nat) :
    (paddedSteps leaves index height count).length = count := by
  simp [paddedSteps]

/-- The pairs along the path of an index, from the root down. -/
def paddedTrail (depth : Nat) : List (Felt × Felt) :=
  ((List.range depth).map (paddedPair leaves index)).reverse

@[simp] theorem map_snd_paddedSteps (height count : Nat) :
    (paddedSteps leaves index height count).map Prod.snd =
      pathBits count (index / 2 ^ height) := by
  rw [← map_isRightChild_range', paddedSteps, List.map_map]
  rfl

theorem foldl_climb_paddedSteps (height count : Nat) :
    (paddedSteps leaves index height count).foldl climb
        (paddedNode leaves height (index / 2 ^ height)) =
      paddedNode leaves (height + count) (index / 2 ^ (height + count)) := by
  rw [← foldPath_from, foldPath, List.zip_map', paddedSteps]

theorem trail_paddedSteps (height count : Nat) :
    trail (paddedNode leaves height (index / 2 ^ height))
        (paddedSteps leaves index height count) =
      ((List.range' height count).map (paddedPair leaves index)).reverse := by
  induction count generalizing height with
  | zero => rfl
  | succ count ih =>
      have hup := ih (height + 1)
      rw [paddedSteps] at hup ⊢
      rw [List.range'_succ, List.map_cons, List.map_cons, List.reverse_cons, trail,
        climb_paddedNode, childPair_paddedNode, hup]

/-- From a node down to its level, the pairs of the path are those of its climb. -/
theorem paddedTrail_split {height count depth : Nat} (hdepth : height + count = depth) :
    paddedTrail leaves index depth =
      trail (paddedNode leaves height (index / 2 ^ height))
          (paddedSteps leaves index height count) ++
        ((List.range height).map (paddedPair leaves index)).reverse := by
  rw [trail_paddedSteps, ← List.reverse_append, ← List.map_append, paddedTrail, ← hdepth,
    List.range_eq_range', List.range_eq_range', ← List.range'_append_1, Nat.zero_add]

/-- The climb from a leaf hashes all the pairs of its path. -/
theorem paddedTrail_eq (depth : Nat) :
    paddedTrail leaves index depth =
      trail (paddedNode leaves 0 index) (paddedSteps leaves index 0 depth) := by
  simpa using paddedTrail_split leaves index (Nat.zero_add depth)

theorem foldl_climb_from_leaf {depth : Nat} (hindex : index < 2 ^ depth) :
    (paddedSteps leaves index 0 depth).foldl climb (paddedNode leaves 0 index) =
      paddedRoot depth leaves := by
  have hclimb := foldl_climb_paddedSteps leaves index 0 depth
  rwa [Nat.pow_zero, Nat.div_one, Nat.zero_add, Nat.div_eq_of_lt hindex, paddedNode_top] at hclimb

end Padded

/-- A climb to the root of the padded tree, of no more steps than the tree is
deep, starts at a node of the tree and passes its siblings. -/
theorem eq_paddedNode_or_trailsMeet {leaves : List Felt} {depth height index : Nat}
    {start : Felt} {steps : List (Felt × Bool)} (hindex : index < 2 ^ depth)
    (hdepth : height + steps.length = depth)
    (hplace : bitsValue (steps.map Prod.snd) = index / 2 ^ height)
    (hroot : steps.foldl climb start = paddedRoot depth leaves) :
    (start = paddedNode leaves height (index / 2 ^ height) ∧
        steps = paddedSteps leaves index height steps.length) ∨
      TrailsMeet (trail start steps) (paddedTrail leaves index depth) := by
  have hsides : steps.map Prod.snd =
      (paddedSteps leaves index height steps.length).map Prod.snd := by
    have hbits := pathBits_bitsValue (steps.map Prod.snd)
    rw [List.length_map, hplace] at hbits
    rw [map_snd_paddedSteps, hbits]
  have htop := foldl_climb_paddedSteps leaves index height steps.length
  rw [hdepth, Nat.div_eq_of_lt hindex, paddedNode_top, ← hroot] at htop
  rw [paddedTrail_split leaves index hdepth, ← List.append_nil (trail start steps)]
  exact (eq_or_trailsMeet hsides htop.symm).imp_right fun hmeet => hmeet.append _ _

/-- A climb of as many steps as the tree is deep starts at the leaf that its sides
lead down to and passes the siblings there. -/
theorem eq_leaf_or_trailsMeet {leaves : List Felt} {depth index : Nat} {start : Felt}
    {steps : List (Felt × Bool)} (hindex : index < 2 ^ depth) (hlength : steps.length = depth)
    (hplace : bitsValue (steps.map Prod.snd) = index)
    (hroot : steps.foldl climb start = paddedRoot depth leaves) :
    (start = paddedNode leaves 0 index ∧ steps = paddedSteps leaves index 0 depth) ∨
      TrailsMeet (trail start steps) (paddedTrail leaves index depth) := by
  have hdepth : 0 + steps.length = depth := (Nat.zero_add _).trans hlength
  rw [← Nat.div_one index, ← Nat.pow_zero 2] at hplace
  have hbinds := eq_paddedNode_or_trailsMeet hindex hdepth hplace hroot
  rwa [Nat.pow_zero, Nat.div_one, hlength] at hbinds

/-- The first leaf below a node is a leaf of the tree. -/
theorem first_below_lt {depth height index : Nat} (hheight : height ≤ depth)
    (hindex : index < 2 ^ (depth - height)) : index * 2 ^ height < 2 ^ depth := by
  calc index * 2 ^ height
    _ < 2 ^ (depth - height) * 2 ^ height :=
        Nat.mul_lt_mul_of_pos_right hindex (Nat.two_pow_pos height)
    _ = 2 ^ depth := by rw [← Nat.pow_add, Nat.sub_add_cancel hheight]

/-- A climb of no more steps than the tree is deep starts at the node that its
sides lead down to. -/
theorem eq_inner_or_trailsMeet {leaves : List Felt} {depth : Nat} {start : Felt}
    {steps : List (Felt × Bool)} (hle : steps.length ≤ depth)
    (hroot : steps.foldl climb start = paddedRoot depth leaves) :
    start = paddedNode leaves (depth - steps.length) (bitsValue (steps.map Prod.snd)) ∨
      TrailsMeet (trail start steps)
        (paddedTrail leaves
          (bitsValue (steps.map Prod.snd) * 2 ^ (depth - steps.length)) depth) := by
  have hdepth : depth - steps.length + steps.length = depth := Nat.sub_add_cancel hle
  have hindex : bitsValue (steps.map Prod.snd) * 2 ^ (depth - steps.length) < 2 ^ depth := by
    have hvalue := bitsValue_lt (steps.map Prod.snd)
    rw [List.length_map, ← Nat.sub_sub_self hle] at hvalue
    exact first_below_lt (Nat.sub_le _ _) hvalue
  have hplace := Nat.mul_div_cancel (bitsValue (steps.map Prod.snd))
    (Nat.two_pow_pos (depth - steps.length))
  refine (eq_paddedNode_or_trailsMeet hindex hdepth hplace.symm hroot).imp_left ?_
  rintro ⟨hstart, -⟩
  rwa [hplace] at hstart

/-- A climb of at least as many steps passes the leaf that its later sides lead
down to. -/
theorem eq_passed_or_trailsMeet {leaves : List Felt} {depth : Nat} {start : Felt}
    {steps : List (Felt × Bool)} (hle : depth ≤ steps.length)
    (hroot : steps.foldl climb start = paddedRoot depth leaves) :
    (steps.take (steps.length - depth)).foldl climb start =
        paddedNode leaves 0
          (bitsValue (steps.map Prod.snd) / 2 ^ (steps.length - depth)) ∨
      TrailsMeet (trail start steps)
        (paddedTrail leaves
          (bitsValue (steps.map Prod.snd) / 2 ^ (steps.length - depth)) depth) := by
  -- the last steps climb through the tree, the others below its leaves
  have hcount : (steps.drop (steps.length - depth)).length = depth := by
    rw [List.length_drop]
    omega
  have hplace : bitsValue ((steps.drop (steps.length - depth)).map Prod.snd) =
      bitsValue (steps.map Prod.snd) / 2 ^ (steps.length - depth) := by
    rw [List.map_drop, bitsValue_drop]
  have hindex := bitsValue_lt ((steps.drop (steps.length - depth)).map Prod.snd)
  rw [List.length_map, hcount, hplace] at hindex
  have hsplit := List.take_append_drop (steps.length - depth) steps
  rw [← hsplit, List.foldl_append] at hroot
  have htrail := trail_append start (steps.take (steps.length - depth))
    (steps.drop (steps.length - depth))
  rw [hsplit] at htrail
  rcases eq_leaf_or_trailsMeet hindex hcount hplace hroot with ⟨hstart, -⟩ | hmeet
  · exact .inl hstart
  · right
    rw [htrail, ← List.append_nil (paddedTrail leaves _ depth)]
    exact hmeet.append _ _

namespace Archive

/-- The children of the node above the path of an index at a height. -/
def pair (tree : Archive) (index height : Nat) : Felt × Felt :=
  (tree.nodeAt height (2 * (index / 2 ^ (height + 1))),
    tree.nodeAt height (2 * (index / 2 ^ (height + 1)) + 1))

/-- The pairs that the tree hashes along the path of an index, from the root
down. -/
def trail (tree : Archive) (index : Nat) : List (Felt × Felt) :=
  ((List.range tree.depth.levels).map (tree.pair index)).reverse

theorem trail_padded (depth : Depth) (leaves : List Felt) (index : Nat) :
    (padded depth leaves).trail index = paddedTrail leaves index depth.levels := by
  rw [trail, paddedTrail]
  congr 1
  apply List.map_congr_left
  intro height hheight
  have hle := Nat.le_of_lt (List.mem_range.1 hheight)
  rw [pair, nodeAt_padded depth leaves hle, nodeAt_padded depth leaves hle, paddedPair]

end Archive

end ShieldedPool.Merkle
