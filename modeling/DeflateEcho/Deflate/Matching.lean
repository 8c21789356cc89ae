import Std.Data.HashMap
import DeflateEcho.Deflate.Block

/-!
# Deflate/Matching — literals and repetitions for given bytes

Compression looks for earlier places where the next bytes already stand.  Which places are looked
at is a matter of speed and taste and is settled apart from the rest, in `neighbours`: the latest
few where the same three bytes begin.  What is taken from there is then compared byte by byte
(`agreement`), so a repetition is right whatever places were proposed.
-/

namespace DeflateEcho.Deflate.Matching

/-- The longest repetition; the shortest one has three bytes. -/
def maxLength : Nat := 258

/-- The greatest distance of a repetition. -/
def maxDistance : Nat := 32768

/-- How many bytes from `there` on equal those from `here` on, up to a limit. -/
def agreement (data : Array UInt8) (there here : Nat) : (limit : Nat) → Nat
  | 0 => 0
  | limit + 1 =>
    if here < data.size ∧ data[there]? = data[here]? then
      agreement data (there + 1) (here + 1) limit + 1
    else 0

/-! ## Places to look at -/

/-- The three bytes from a position on, as a number. -/
def key? (data : Array UInt8) (here : Nat) : Option Nat :=
  match data[here]?, data[here + 1]?, data[here + 2]? with
  | some a, some b, some c => some (a.toNat + 256 * (b.toNat + 256 * c.toNat))
  | _, _, _ => none

/-- How many earlier places are looked at. -/
def patience : Nat := 44

/-- For each position the latest earlier ones where the same three bytes begin, latest first.  The
data lies `offset` bytes into a stream whose places are remembered by their distance from its start;
there zero stands for no place, so the first byte of the stream is never found again. -/
def neighbours (offset : Nat) (data : Array UInt8) : Array (List Nat) :=
  let start : Array (List Nat) × Std.HashMap Nat (List Nat) := (#[], {})
  let (found, _) := (List.range data.size).foldl (fun (found, seen) here =>
    match key? data here with
    | none => (found.push [], seen)
    | some key =>
      let earlier := seen[key]?.getD []
      let seen :=
        if offset + here = 0 then seen else seen.insert key ((here :: earlier).take patience)
      (found.push earlier, seen)) start
  found

/-! ## Choice -/

/-- A repetition that may be chosen: its length and its distance. -/
structure Candidate where
  length : Nat
  distance : Nat
  long : 3 ≤ length

def Candidate.token (c : Candidate) : Token := .backref (.ofPair c.length c.distance)

/-- From this distance on a repetition of the shortest length is not worth its bits. -/
def tooFar : Nat := 8192

/-- A repetition this long is taken at once. -/
def longEnough : Nat := 128

/-- The longest repetition that begins at one of the places and has more than `bound` bytes, the
nearest of them if several are as long. -/
def longest? (data : Array UInt8) (here bound : Nat) (places : List Nat) : Option Candidate :=
  let (length, distance) := places.foldl (fun best there =>
    if there < here ∧ here - there ≤ maxDistance then
      let length := agreement data there here maxLength
      if best.1 < length then (length, here - there) else best
    else best) (bound, 0)
  if h : 3 ≤ length then
    if length ≤ bound ∨ (length = 3 ∧ tooFar ≤ distance) then none
    else some ⟨length, distance, h⟩
  else none

/-- The tokens from a position on, behind those already chosen.  A repetition that was found is
**held** while the next position is looked at: it gives way to a longer one there, and then leaves
only its first byte behind. -/
def tokensFrom (data : Array UInt8) (places : Array (List Nat)) (here : Nat)
    (held : Option Candidate) (chosen : Array Token) : Array Token :=
  if here < data.size then
    let found := places[here]?.getD []
    match held with
    | none =>
      match longest? data here 2 found with
      | none => tokensFrom data places (here + 1) none (chosen.push (.literal (data[here]?.getD 0)))
      | some c =>
        if longEnough ≤ c.length then
          tokensFrom data places (here + c.length) none (chosen.push c.token)
        else tokensFrom data places (here + 1) (some c) chosen
    | some h =>
      match longest? data here h.length found with
      | none => tokensFrom data places (here + (h.length - 1)) none (chosen.push h.token)
      | some c =>
        let chosen := chosen.push (.literal (data[here - 1]?.getD 0))
        if longEnough ≤ c.length then
          tokensFrom data places (here + c.length) none (chosen.push c.token)
        else tokensFrom data places (here + 1) (some c) chosen
  else
    match held with
    | none => chosen
    | some h => chosen.push h.token
termination_by data.size - here
decreasing_by
  · omega
  · have := c.long; omega
  · omega
  · have := h.long; omega
  · have := c.long; omega
  · omega

/-- Tokens that stand for these bytes, which lie `offset` bytes into a stream. -/
def tokens (offset : Nat) (data : Bytes) : List Token :=
  let data := data.toArray
  (tokensFrom data (neighbours offset data) 0 none #[]).toList

end DeflateEcho.Deflate.Matching
