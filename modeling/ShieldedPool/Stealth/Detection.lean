/-
Finding payments.  A scan key recomputes the one-time key and the commitment
of an announcement; the payment is its own when the commitment is the
announced one.  A scanner does so along a feed of records and passes over what
cannot be read.
-/
import ShieldedPool.Stealth.Protocol

namespace ShieldedPool.Stealth

variable {κ : Type} [ScanKey κ]

/-- The one-time key that an announcement would have under a scan key. -/
def Protocol.candidate (protocol : Protocol) (key : κ) (a : Announcement) :
    Except PointDefect OneTimeKey := do
  a.ephemeralPub.validate
  protocol.oneTimeKey (a.ephemeralPub.mul (ScanKey.view key)) (ScanKey.spendPub key)

/-- The one-time point of an announcement that belongs to a scan key. -/
def Protocol.detect (protocol : Protocol) (key : κ) (a : Announcement) :
    Except PointDefect (Option Point) := do
  let candidate ← protocol.candidate key a
  return if positionCommitment candidate.x a.amount a.epoch = a.commitment then
    some candidate.point
  else none

/-- A payment found in a feed, with its place there. -/
structure Match where
  position : Nat
  announcement : Announcement
  stealthPub : Point
deriving DecidableEq

/-- What a single record of the feed holds for a scan key. -/
def Protocol.findIn (protocol : Protocol) (key : κ) (position : Nat)
    (record : Bytes) : Option Match :=
  match Announcement.parse record with
  | .error _ => none
  | .ok a =>
      match protocol.detect key a with
      | .ok (some stealthPub) => some ⟨position, a, stealthPub⟩
      | .ok none => none
      | .error _ => none

/-- A pass over a feed: the records that are left and the place of the next. -/
structure Scanner (κ : Type) where
  protocol : Protocol
  key : κ
  position : Nat
  records : List Bytes

namespace Scanner

/-- The next payment from a place on, and the records behind it. -/
def findFrom (protocol : Protocol) (key : κ) (position : Nat) :
    List Bytes → Option (Match × List Bytes)
  | [] => none
  | record :: records =>
      match protocol.findIn key position record with
      | some found => some (found, records)
      | none => findFrom protocol key (position + 1) records

/-- The next payment, and the pass that goes on behind it. -/
def next (scanner : Scanner κ) : Option (Match × Scanner κ) :=
  (findFrom scanner.protocol scanner.key scanner.position scanner.records).map
    fun (found, records) =>
      (found, { scanner with position := found.position + 1, records })

theorem findFrom_length {protocol : Protocol} {key : κ} {position : Nat}
    {records rest : List Bytes} {found : Match}
    (hfind : findFrom protocol key position records = some (found, rest)) :
    rest.length < records.length := by
  induction records generalizing position with
  | nil => simp [findFrom] at hfind
  | cons record records ih =>
      simp only [findFrom] at hfind
      split at hfind
      · simp only [Option.some.injEq, Prod.mk.injEq] at hfind
        simp [hfind.2]
      · exact Nat.lt_succ_of_lt (ih hfind)

theorem next_length {scanner after : Scanner κ} {found : Match}
    (hnext : scanner.next = some (found, after)) :
    after.records.length < scanner.records.length := by
  obtain ⟨⟨_, rest⟩, hfind, heq⟩ := Option.map_eq_some_iff.1 hnext
  simp only [Prod.mk.injEq] at heq
  simpa only [← heq.2] using findFrom_length hfind

/-- All payments that are left, in order. -/
def toList (scanner : Scanner κ) : List Match :=
  match _hnext : scanner.next with
  | none => []
  | some (found, after) => found :: toList after
termination_by scanner.records.length
decreasing_by exact next_length _hnext

/-- Read on from a place until a record holds a payment or none is left: the
payment, the place of the next record, and the records from there on. -/
def readFrom (protocol : Protocol) (key : κ) (position : Nat) :
    List Bytes → Option Match × Nat × List Bytes
  | [] => (none, position, [])
  | record :: records =>
      match protocol.findIn key position record with
      | some found => (some found, position + 1, records)
      | none => readFrom protocol key (position + 1) records

/-- Call for the next payment: the answer, and the pass as the call leaves it. -/
def call (scanner : Scanner κ) : Option Match × Scanner κ :=
  let (answer, position, records) :=
    readFrom scanner.protocol scanner.key scanner.position scanner.records
  (answer, { scanner with position, records })

/-- The answers to a number of calls, and the pass that they leave. -/
def calls (scanner : Scanner κ) : (count : Nat) → List (Option Match) × Scanner κ
  | 0 => ([], scanner)
  | count + 1 =>
      let (answer, scanner) := scanner.call
      let (answers, scanner) := calls scanner count
      (answer :: answers, scanner)

/-- A second pass that goes on from the same place. -/
def clone (scanner : Scanner κ) : Scanner κ :=
  { protocol := scanner.protocol
    key := scanner.key
    position := scanner.position
    records := scanner.records }

end Scanner

/-- A pass over a whole feed. -/
def Protocol.scan (protocol : Protocol) (key : κ) (records : List Bytes) : Scanner κ :=
  ⟨protocol, key, 0, records⟩

end ShieldedPool.Stealth
