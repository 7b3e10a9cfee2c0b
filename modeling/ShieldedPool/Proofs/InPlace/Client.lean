/-
A client that works in place.  It holds a follower, an archive and a registry,
and runs one operation after the other on them.  Every operation settles, so a
refused one is as if it had never been tried: the client goes on from the state
that it had, and of a run only the accepted operations are left.
-/
import ShieldedPool.Proofs.InPlace.Settling
import ShieldedPool.Proofs.Merkle.Reimport

namespace ShieldedPool

open EStateM (run_bind run_get)
open InPlace (settle)
open Merkle (Archive Depth Follower Snapshot)
open Spend (Registry)

/-- The trees that a client keeps, and its spends in flight. -/
structure Client where
  live : Follower
  full : Archive
  registry : Registry

namespace Client

/-- An operation on one part of a client, or a question to one. -/
inductive Operation
  | insertLive (leaf : Felt)
  | insertFull (leaf : Felt)
  | importState (snapshot : Snapshot)
  | restoreHistory (older : List Felt)
  | applyAccount (account : LedgerAccount)
  | prepareLive (note : Note)
  | prepareFull (note : Note)
  | register (hash : Felt)
  | release (hash : Felt)
  | knowsRoot (root : Felt)
  | proveLive (index : UInt64)
  | proveFull (index : UInt64)
  | recentRoots (count : Nat)

inductive Answer
  | done
  | index (index : Nat)
  | witness (witness : Spend.Witness)
  | truth (holds : Bool)
  | proof (proof : Merkle.Inclusion)
  | roots (roots : List Felt)

/-- Run a program on the follower of the client. -/
def onLive {α : Type} (program : InPlace Follower α) : InPlace Client α :=
  program.on live fun client live => { client with live }

def onFull {α : Type} (program : InPlace Archive α) : InPlace Client α :=
  program.on full fun client full => { client with full }

def onRegistry {α : Type} (program : InPlace Registry α) : InPlace Client α :=
  program.on registry fun client registry => { client with registry }

/-- Ask the client without changing it. -/
def ask (question : Client → Except Failure Answer) : InPlace Client Answer := do
  MonadExcept.ofExcept (question (← get))

/-- The operation as the client runs it. -/
def Operation.program : Operation → InPlace Client Answer
  | insertLive leaf => .index <$> onLive (Follower.insertInPlace leaf)
  | insertFull leaf => .index <$> onFull (Archive.insertInPlace leaf)
  | importState snapshot => (fun _ => .done) <$> onLive (Follower.importInPlace snapshot)
  | restoreHistory older => (fun _ => .done) <$> onLive (Follower.restoreInPlace older)
  | applyAccount account => (fun _ => .done) <$> onLive account.applyInPlace
  | prepareLive note => do
      .witness <$> onRegistry (Spend.prepareInPlace note (← get).live)
  | prepareFull note => do
      .witness <$> onRegistry (Spend.prepareInPlace note (← get).full)
  | register hash => (fun _ => .done) <$> onRegistry (Registry.beginInPlace hash)
  | release hash => .truth <$> onRegistry (Registry.releaseInPlace hash)
  | knowsRoot root => ask fun client => .ok (.truth (client.live.knowsRoot root))
  | proveLive index => ask fun client => (client.live.prove index).map .proof
  | proveFull index => ask fun client => (client.full.prove index).map .proof
  | recentRoots count => ask fun client => (client.full.recentRoots count).map .roots

/-- What the operation comes to. -/
def outcome (client : Client) : Operation → Except Failure (Answer × Client)
  | .insertLive leaf =>
      (client.live.insert leaf).map fun (live, index) => (.index index, { client with live })
  | .insertFull leaf =>
      (client.full.insert leaf).map fun (full, index) => (.index index, { client with full })
  | .importState snapshot =>
      (client.live.importState snapshot).map fun live => (.done, { client with live })
  | .restoreHistory older =>
      .ok (.done, { client with live := client.live.restoreHistory older })
  | .applyAccount account =>
      (account.applyTo client.live).map fun live => (.done, { client with live })
  | .prepareLive note =>
      (Spend.prepare client.registry note client.live).map fun (witness, registry) =>
        (.witness witness, { client with registry })
  | .prepareFull note =>
      (Spend.prepare client.registry note client.full).map fun (witness, registry) =>
        (.witness witness, { client with registry })
  | .register hash =>
      (client.registry.begin hash).map fun registry => (.done, { client with registry })
  | .release hash =>
      .ok (.truth (client.registry.contains hash),
        { client with registry := client.registry.release hash })
  | .knowsRoot root => .ok (.truth (client.live.knowsRoot root), client)
  | .proveLive index => (client.live.prove index).map fun proof => (.proof proof, client)
  | .proveFull index => (client.full.prove index).map fun proof => (.proof proof, client)
  | .recentRoots count => (client.full.recentRoots count).map fun roots => (.roots roots, client)

/-- Run operations one after the other.  After a refused one the client goes on
with what the operation has left. -/
def carryOut (client : Client) : List Operation → List (Except Failure Answer) × Client
  | [] => ([], client)
  | operation :: operations =>
      match operation.program.run client with
      | .ok answer after =>
          ((.ok answer :: (carryOut after operations).1), (carryOut after operations).2)
      | .error refusal left =>
          ((.error refusal :: (carryOut left operations).1), (carryOut left operations).2)

/-- A client that has just set up its trees: the archive is empty, the follower is
empty or the view of another archive. -/
def start (depth fullDepth : Depth) (origin : Follower.Origin) : Client :=
  ⟨origin.follower depth, Archive.empty fullDepth, Registry.empty⟩

/-- The trees of the client are as operations can leave them. -/
structure WellFormed (depth fullDepth : Depth) (client : Client) : Prop where
  live : Follower.Publishable depth client.live
  full : ∃ leaves, leaves.length ≤ fullDepth.capacity ∧
    client.full = Archive.padded fullDepth leaves

variable {depth fullDepth : Depth} {client after : Client}

theorem wellFormed_start (depth fullDepth : Depth) (origin : Follower.Origin) :
    (start depth fullDepth origin).WellFormed depth fullDepth where
  live := origin.publishable depth
  full := ⟨[], Nat.zero_le _, (Archive.padded_nil fullDepth).symm⟩

section Run

variable {α : Type} (answer : α → Answer)

/-- A program that settles on a part of the client settles on the client. -/
theorem run_map_on {τ : Type} {part : Client → τ} {write : Client → τ → Client}
    {program : InPlace τ α} {result : Except Failure (α × τ)}
    (hsame : write client (part client) = client)
    (hsettles : program.run (part client) = settle (part client) result) :
    (answer <$> program.on part write).run client =
      settle client (result.map fun (a, written) => (answer a, write client written)) := by
  rw [map_eq_pure_bind, run_bind, InPlace.run_on_settle hsame hsettles]
  rcases result with refusal | ⟨a, written⟩ <;> rfl

theorem run_onLive {program : InPlace Follower α} {result : Except Failure (α × Follower)}
    (hsettles : program.run client.live = settle client.live result) :
    (answer <$> onLive program).run client =
      settle client (result.map fun (a, live) => (answer a, { client with live })) :=
  run_map_on answer rfl hsettles

theorem run_onFull {program : InPlace Archive α} {result : Except Failure (α × Archive)}
    (hsettles : program.run client.full = settle client.full result) :
    (answer <$> onFull program).run client =
      settle client (result.map fun (a, full) => (answer a, { client with full })) :=
  run_map_on answer rfl hsettles

theorem run_onRegistry {program : InPlace Registry α} {result : Except Failure (α × Registry)}
    (hsettles : program.run client.registry = settle client.registry result) :
    (answer <$> onRegistry program).run client =
      settle client (result.map fun (a, registry) => (answer a, { client with registry })) :=
  run_map_on answer rfl hsettles

theorem run_ask (question : Client → Except Failure Answer) :
    (ask question).run client = settle client ((question client).map (·, client)) := by
  simp only [ask, run_bind, run_get]
  rcases question client with refusal | a <;> rfl

end Run

/-- Whatever its trees have been through, each operation of a client comes to what
its function says. -/
theorem WellFormed.run_program (hclient : client.WellFormed depth fullDepth)
    (operation : Operation) :
    operation.program.run client = settle client (client.outcome operation) := by
  obtain ⟨hlive, leaves, hle, hfull⟩ := hclient
  cases operation with
  | insertLive leaf =>
      have hlength : client.live.frontier.length = client.live.depth.levels := by
        rw [hlive.1]
        exact hlive.2.length_frontier
      rw [Operation.program, run_onLive _ (Follower.run_insertInPlace hlength leaf), outcome]
      rcases client.live.insert leaf with refusal | ⟨after, index⟩ <;> rfl
  | insertFull leaf =>
      have hsettles := Archive.run_insertInPlace fullDepth leaves leaf hle
      rw [← hfull] at hsettles
      rw [Operation.program, run_onFull _ hsettles, outcome]
      rcases client.full.insert leaf with refusal | ⟨after, index⟩ <;> rfl
  | importState snapshot =>
      rw [Operation.program, run_onLive _ (Follower.run_importInPlace _ snapshot), outcome]
      rcases client.live.importState snapshot with refusal | after <;> rfl
  | restoreHistory older =>
      have hsettles : (Follower.restoreInPlace older).run client.live =
          settle client.live (.ok ((), client.live.restoreHistory older)) :=
        Follower.run_restoreInPlace client.live older
      rw [Operation.program, run_onLive _ hsettles]
      rfl
  | applyAccount account =>
      rw [Operation.program, run_onLive _ (account.run_applyInPlace _), outcome]
      rcases account.applyTo client.live with refusal | after <;> rfl
  | prepareLive note =>
      rw [Operation.program, run_bind, run_get]
      exact run_onRegistry _ (Spend.run_prepareInPlace client.registry note client.live)
  | prepareFull note =>
      rw [Operation.program, run_bind, run_get]
      exact run_onRegistry _ (Spend.run_prepareInPlace client.registry note client.full)
  | register hash =>
      rw [Operation.program, run_onRegistry _ (Registry.run_beginInPlace _ hash), outcome]
      rcases client.registry.begin hash with refusal | after <;> rfl
  | release hash =>
      have hsettles : (Registry.releaseInPlace hash).run client.registry =
          settle client.registry
            (.ok (client.registry.contains hash, client.registry.release hash)) :=
        Registry.run_releaseInPlace client.registry hash
      rw [Operation.program, run_onRegistry _ hsettles]
      rfl
  | knowsRoot root => rfl
  | proveLive index =>
      rw [Operation.program, run_ask, outcome]
      rcases client.live.prove index with refusal | proof <;> rfl
  | proveFull index =>
      rw [Operation.program, run_ask, outcome]
      rcases client.full.prove index with refusal | proof <;> rfl
  | recentRoots count =>
      rw [Operation.program, run_ask, outcome]
      rcases client.full.recentRoots count with refusal | roots <;> rfl

/-- Accepted operations keep the trees well formed. -/
theorem WellFormed.of_outcome (hclient : client.WellFormed depth fullDepth)
    {operation : Operation} {answer : Answer}
    (haccepted : client.outcome operation = .ok (answer, after)) :
    after.WellFormed depth fullDepth := by
  obtain ⟨hlive, hfull⟩ := hclient
  cases operation with
  | insertLive leaf =>
      obtain ⟨⟨live, index⟩, hinsert, heq⟩ := map_eq_ok_iff.1 haccepted
      cases heq
      have hperform : client.live.perform (.insert leaf) = .ok live :=
        congrArg (Except.map Prod.fst) hinsert
      exact ⟨hlive.perform hperform, hfull⟩
  | insertFull leaf =>
      obtain ⟨⟨full, index⟩, hinsert, heq⟩ := map_eq_ok_iff.1 haccepted
      cases heq
      obtain ⟨leaves, hle, hpadded⟩ := hfull
      refine ⟨hlive, leaves ++ [leaf], ?_⟩
      rw [hpadded] at hinsert
      rcases Nat.lt_or_eq_of_le hle with hroom | hlong
      · rw [Archive.insert_padded fullDepth leaves hroom] at hinsert
        cases hinsert
        refine ⟨?_, rfl⟩
        rw [List.length_append]
        exact hroom
      · rw [Archive.insert_padded_full fullDepth leaves hlong] at hinsert
        cases hinsert
  | importState snapshot =>
      obtain ⟨live, himport, heq⟩ := map_eq_ok_iff.1 haccepted
      cases heq
      have hperform : client.live.perform (.importState snapshot) = .ok live := himport
      exact ⟨hlive.perform hperform, hfull⟩
  | restoreHistory older =>
      cases haccepted
      exact ⟨hlive, hfull⟩
  | applyAccount account =>
      obtain ⟨live, happlied, heq⟩ := map_eq_ok_iff.1 haccepted
      cases heq
      have hperform : client.live.perform (.applyAccount account) = .ok live := happlied
      exact ⟨hlive.perform hperform, hfull⟩
  | prepareLive note | prepareFull note | register hash =>
      obtain ⟨_, _, heq⟩ := map_eq_ok_iff.1 haccepted
      cases heq
      exact ⟨hlive, hfull⟩
  | release hash | knowsRoot root =>
      cases haccepted
      exact ⟨hlive, hfull⟩
  | proveLive index | proveFull index | recentRoots count =>
      obtain ⟨_, _, heq⟩ := map_eq_ok_iff.1 haccepted
      cases heq
      exact ⟨hlive, hfull⟩

theorem WellFormed.carryOut_of_ok (hclient : client.WellFormed depth fullDepth)
    {operation : Operation} {answer : Answer}
    (haccepted : client.outcome operation = .ok (answer, after)) (later : List Operation) :
    client.carryOut (operation :: later) =
      (.ok answer :: (after.carryOut later).1, (after.carryOut later).2) := by
  rw [carryOut, hclient.run_program, haccepted]
  rfl

theorem WellFormed.carryOut_of_error (hclient : client.WellFormed depth fullDepth)
    {operation : Operation} {refusal : Failure}
    (hrefused : client.outcome operation = .error refusal) (later : List Operation) :
    client.carryOut (operation :: later) =
      (.error refusal :: (client.carryOut later).1, (client.carryOut later).2) := by
  rw [carryOut, hclient.run_program, hrefused]
  rfl

theorem WellFormed.of_carryOut (hclient : client.WellFormed depth fullDepth)
    (operations : List Operation) :
    (client.carryOut operations).2.WellFormed depth fullDepth := by
  induction operations generalizing client with
  | nil => exact hclient
  | cons operation operations ih =>
      rcases houtcome : client.outcome operation with refusal | ⟨answer, after⟩
      · rw [hclient.carryOut_of_error houtcome]
        exact ih hclient
      · rw [hclient.carryOut_of_ok houtcome]
        exact ih (hclient.of_outcome houtcome)

/-- The operations of a run that are accepted. -/
def accepted (client : Client) (operations : List Operation) : List Operation :=
  ((operations.zip (client.carryOut operations).1).filter (·.2.isOk)).map Prod.fst

/-- Without its refused operations a run leads to the same state, with the same
answers to the others. -/
theorem WellFormed.carryOut_accepted (hclient : client.WellFormed depth fullDepth)
    (operations : List Operation) :
    client.carryOut (client.accepted operations) =
      ((client.carryOut operations).1.filter Except.isOk, (client.carryOut operations).2) := by
  induction operations generalizing client with
  | nil => rfl
  | cons operation operations ih =>
      rcases houtcome : client.outcome operation with refusal | ⟨answer, after⟩
      · have hskipped : client.accepted (operation :: operations) =
            client.accepted operations := by
          rw [accepted, hclient.carryOut_of_error houtcome]
          rfl
        rw [hskipped, hclient.carryOut_of_error houtcome, ih hclient]
        rfl
      · have hkept : client.accepted (operation :: operations) =
            operation :: after.accepted operations := by
          rw [accepted, hclient.carryOut_of_ok houtcome]
          rfl
        rw [hkept, hclient.carryOut_of_ok houtcome, hclient.carryOut_of_ok houtcome,
          ih (hclient.of_outcome houtcome)]
        rfl

/-- The act of a follower as an operation of the client that holds it. -/
def Operation.ofAct : Follower.Act → Operation
  | .insert leaf => .insertLive leaf
  | .importState snapshot => .importState snapshot
  | .restoreHistory older => .restoreHistory older
  | .applyAccount account => .applyAccount account

theorem outcome_ofAct_of_error {act : Follower.Act} {refusal : Failure}
    (hrefused : client.live.perform act = .error refusal) :
    client.outcome (.ofAct act) = .error refusal := by
  cases act with
  | insert leaf =>
      rw [Follower.perform] at hrefused
      rw [Operation.ofAct, outcome]
      rcases hinsert : client.live.insert leaf with refusal' | grown
      · rw [hinsert] at hrefused
        cases hrefused
        rfl
      · rw [hinsert] at hrefused
        cases hrefused
  | importState snapshot => exact congrArg (Except.map _) hrefused
  | restoreHistory older => cases hrefused
  | applyAccount account => exact congrArg (Except.map _) hrefused

theorem outcome_ofAct_of_ok {act : Follower.Act} {live : Follower}
    (haccepted : client.live.perform act = .ok live) :
    ∃ answer, client.outcome (.ofAct act) = .ok (answer, { client with live }) := by
  cases act with
  | insert leaf =>
      obtain ⟨⟨grown, index⟩, hinsert, rfl⟩ := map_eq_ok_iff.1 haccepted
      exact ⟨.index index, congrArg (Except.map _) hinsert⟩
  | importState snapshot => exact ⟨.done, congrArg (Except.map _) haccepted⟩
  | restoreHistory older =>
      cases haccepted
      exact ⟨.done, rfl⟩
  | applyAccount account => exact ⟨.done, congrArg (Except.map _) haccepted⟩

/-- On its follower alone, a client runs what a run of acts is said to be. -/
theorem WellFormed.carryOut_ofAct (hclient : client.WellFormed depth fullDepth)
    (acts : List Follower.Act) :
    (client.carryOut (acts.map .ofAct)).2 = { client with live := client.live.run acts } := by
  induction acts generalizing client with
  | nil => rfl
  | cons act acts ih =>
      rw [List.map_cons, Follower.run, List.foldl_cons]
      rcases hperform : client.live.perform act with refusal | live
      · rw [hclient.carryOut_of_error (outcome_ofAct_of_error hperform),
          Follower.step_of_error hperform]
        exact ih hclient
      · obtain ⟨answer, haccepted⟩ := outcome_ofAct_of_ok hperform
        rw [hclient.carryOut_of_ok haccepted, Follower.step_of_ok hperform]
        exact ih (hclient.of_outcome haccepted)

/-- A tree of the depth takes the account over. -/
def Takes (depth : Depth) (account : LedgerAccount) : Bool :=
  (account.snapshot.check depth).isOk

theorem outcome_applyAccount_of_error (hdepth : client.live.depth = depth)
    {account : LedgerAccount} {refusal : Failure}
    (hcheck : account.snapshot.check depth = .error refusal) :
    client.outcome (.applyAccount account) = .error refusal := by
  rw [outcome, LedgerAccount.applyTo, Follower.importState, hdepth, hcheck]
  rfl

theorem outcome_applyAccount_of_ok (hdepth : client.live.depth = depth)
    {account : LedgerAccount} (hcheck : account.snapshot.check depth = .ok ()) :
    ∃ after, client.outcome (.applyAccount account) = .ok (.done, after) := by
  rw [outcome, LedgerAccount.applyTo, Follower.importState, hdepth, hcheck]
  exact ⟨_, rfl⟩

/-- Of a run of accounts, those that the depth of the tree does not take might as
well not have come. -/
theorem WellFormed.carryOut_accounts (hclient : client.WellFormed depth fullDepth)
    (accounts : List LedgerAccount) :
    (client.carryOut (accounts.map .applyAccount)).2 =
      (client.carryOut ((accounts.filter (Takes depth)).map .applyAccount)).2 := by
  induction accounts generalizing client with
  | nil => rfl
  | cons account accounts ih =>
      have hdepth : client.live.depth = depth := hclient.live.1
      rw [List.map_cons]
      rcases hcheck : account.snapshot.check depth with refusal | ⟨⟩
      · have hrefused := outcome_applyAccount_of_error hdepth hcheck
        have htampered : ¬ Takes depth account := by simp [Takes, hcheck, Except.isOk, Except.toBool]
        rw [hclient.carryOut_of_error hrefused, List.filter_cons_of_neg htampered]
        exact ih hclient
      · obtain ⟨after, haccepted⟩ := outcome_applyAccount_of_ok hdepth hcheck
        have hvalid : Takes depth account := by simp [Takes, hcheck, Except.isOk, Except.toBool]
        rw [hclient.carryOut_of_ok haccepted, List.filter_cons_of_pos hvalid, List.map_cons,
          hclient.carryOut_of_ok haccepted]
        exact ih (hclient.of_outcome haccepted)

/-- What a refused operation leaves of itself: nothing. -/
structure KeepsNoTrace (depth : Depth) (client : Client) : Prop where
  /-- Each operation comes to what its function says. -/
  settles : ∀ operation : Operation,
    operation.program.run client = settle client (client.outcome operation)
  unchanged : ∀ (operation : Operation) (refusal : Failure) (left : Client),
    operation.program.run client = .error refusal left → left = client
  /-- Whatever follows a refused operation is answered as if it had not been tried. -/
  untried : ∀ (operation : Operation) (refusal : Failure) (left : Client)
    (later : List Operation), operation.program.run client = .error refusal left →
      client.carryOut (operation :: later) =
        (.error refusal :: (client.carryOut later).1, (client.carryOut later).2)
  /-- The accepted operations of a run come alone to the same state and answers. -/
  accepted : ∀ later : List Operation,
    client.carryOut (client.accepted later) =
      ((client.carryOut later).1.filter Except.isOk, (client.carryOut later).2)
  /-- So do the accounts that a tree of the depth takes. -/
  accounts : ∀ accounts : List LedgerAccount,
    (client.carryOut (accounts.map .applyAccount)).2 =
      (client.carryOut ((accounts.filter (Takes depth)).map .applyAccount)).2

end Client

/-- At every state that a client reaches, whatever was accepted or refused on the
way, a refused operation keeps the trees and the registry as they are. -/
theorem refused_operation_keeps_no_trace (depth fullDepth : Depth)
    (origin : Follower.Origin) (operations : List Client.Operation) :
    ((Client.start depth fullDepth origin).carryOut operations).2.KeepsNoTrace depth := by
  have hclient := (Client.wellFormed_start depth fullDepth origin).of_carryOut operations
  generalize ((Client.start depth fullDepth origin).carryOut operations).2 = client at hclient
  have hrefused : ∀ {operation : Client.Operation} {refusal : Failure} {left : Client},
      operation.program.run client = .error refusal left →
        client.outcome operation = .error refusal ∧ left = client := by
    intro operation refusal left hrun
    rwa [hclient.run_program, InPlace.settle_eq_error_iff] at hrun
  exact {
    settles := hclient.run_program
    unchanged := fun _ _ _ hrun => (hrefused hrun).2
    untried := fun _ _ _ later hrun => hclient.carryOut_of_error (hrefused hrun).1 later
    accepted := hclient.carryOut_accepted
    accounts := hclient.carryOut_accounts }

end ShieldedPool
