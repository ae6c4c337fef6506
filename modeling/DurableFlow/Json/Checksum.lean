import DurableFlow.Json.Written

/-! The checksum of a document: the 64 bit xxHash of its canonical text, with seed zero, its
top bit cleared. Nothing is said about collisions. -/
namespace DurableFlow.Hash

private def prime1 : UInt64 := 0x9E3779B185EBCA87
private def prime2 : UInt64 := 0xC2B2AE3D27D4EB4F
private def prime3 : UInt64 := 0x165667B19E3779F9
private def prime4 : UInt64 := 0x85EBCA77C2B2AE63
private def prime5 : UInt64 := 0x27D4EB2F165667C5

def rotate (x : UInt64) (count : UInt64) : UInt64 := (x <<< count) ||| (x >>> (64 - count))

def takeIn (lane word : UInt64) : UInt64 := rotate (lane + word * prime2) 31 * prime1

private def joinLane (acc lane : UInt64) : UInt64 :=
  (acc ^^^ takeIn 0 lane) * prime1 + prime4

def littleEndian : List UInt8 → UInt64
  | [] => 0
  | b :: rest => b.toUInt64 ||| (littleEndian rest <<< 8)

/-- Full blocks of 32 bytes, each lane taking eight of them; the bytes left over come last. -/
def blocks (a b c d : UInt64) (bytes : List UInt8) :
    (UInt64 × UInt64 × UInt64 × UInt64) × List UInt8 :=
  if _h : 32 ≤ bytes.length then
    let word (k : Nat) := littleEndian ((bytes.drop (8 * k)).take 8)
    blocks (takeIn a (word 0)) (takeIn b (word 1)) (takeIn c (word 2)) (takeIn d (word 3))
      (bytes.drop 32)
  else ((a, b, c, d), bytes)
termination_by bytes.length
decreasing_by simp only [List.length_drop]; omega

def tail (acc : UInt64) (bytes : List UInt8) : UInt64 :=
  if _h : 8 ≤ bytes.length then
    tail (rotate (acc ^^^ takeIn 0 (littleEndian (bytes.take 8))) 27 * prime1 + prime4)
      (bytes.drop 8)
  else if _h : 4 ≤ bytes.length then
    tail (rotate (acc ^^^ littleEndian (bytes.take 4) * prime1) 23 * prime2 + prime3)
      (bytes.drop 4)
  else match bytes with
    | [] => acc
    | b :: rest => tail (rotate (acc ^^^ b.toUInt64 * prime5) 11 * prime1) rest
termination_by bytes.length
decreasing_by all_goals simp only [List.length_drop, List.length_cons]; omega

def avalanche (x : UInt64) : UInt64 :=
  let x := (x ^^^ (x >>> 33)) * prime2
  let x := (x ^^^ (x >>> 29)) * prime3
  x ^^^ (x >>> 32)

def xx64 (bytes : List UInt8) : UInt64 :=
  let size := UInt64.ofNat bytes.length
  if 32 ≤ bytes.length then
    let ((a, b, c, d), rest) := blocks (prime1 + prime2) prime2 0 (0 - prime1) bytes
    let acc := rotate a 1 + rotate b 7 + rotate c 12 + rotate d 18
    let acc := joinLane (joinLane (joinLane (joinLane acc a) b) c) d
    avalanche (tail (acc + size) rest)
  else avalanche (tail (prime5 + size) bytes)

end DurableFlow.Hash

namespace DurableFlow.Json

def checksum (v : Json) : Nat :=
  (Hash.xx64 (canonical v).toUTF8.toList).toNat % Nat.pow 2 63

end DurableFlow.Json
