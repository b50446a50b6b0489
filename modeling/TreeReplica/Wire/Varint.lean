import TreeReplica.Fault

/-!
Length prefixes: base 128, seven bits a byte, least significant group first, with the high bit set on
every byte but the last. `Varint.encode` writes them, `Varint.Decoder` reads them byte by byte, and
`Varint.decode` reads one from the front of a buffer. -/

namespace TreeReplica

namespace Varint

/-- The longest prefix of a 64-bit length. -/
def maxLength : Nat := 10

/-- The continuation bit of a byte. -/
def continues (b : UInt8) : Bool := b ≥ 0x80

/-- The seven data bits of a byte. -/
def group (b : UInt8) : Nat := b.toNat % 128

/-- The prefix of a number, in at least one byte. -/
def encodeNat (n : Nat) : Bytes :=
  if n < 128 then [UInt8.ofNat n] else UInt8.ofNat (n % 128 + 128) :: encodeNat (n / 128)

def encode (n : UInt64) : Bytes := encodeNat n.toNat

/-- The number of groups of a number. -/
def lengthNat (n : Nat) : Nat := if n < 128 then 1 else lengthNat (n / 128) + 1

def encodedLength (n : UInt64) : Nat := lengthNat n.toNat

/-- What has been read of a prefix: how many bytes were pushed, how many groups they completed, and
    the value of those groups. -/
structure Decoder where
  pushed : Nat
  groups : Nat
  value : UInt64
  deriving DecidableEq, Repr

namespace Decoder

def start : Decoder := ⟨0, 0, 0⟩

/-- The place of the next group, in bits. -/
def shift (d : Decoder) : UInt64 := .ofNat (7 * d.groups)

/-- Takes one more byte. The answer is the value once a byte ends the prefix. A group that does not
    come back when it is shifted to its place and back, and any byte after the tenth, is refused. -/
def push (d : Decoder) (b : UInt8) : Except Fault (Option UInt64) × Decoder :=
  let d := { d with pushed := d.pushed + 1 }
  if d.pushed > maxLength then (.error (.malformed .lengthTooLong), d)
  else
    let part : UInt64 := .ofNat (group b)
    let shifted := part <<< d.shift
    if shifted >>> d.shift ≠ part then (.error (.malformed .lengthOverflow), d)
    else
      let d := { d with value := d.value ||| shifted }
      if continues b then (.ok none, { d with groups := d.groups + 1 }) else (.ok (some d.value), d)

end Decoder

/-- What the front of a buffer says about a prefix. -/
inductive Front
  /-- The buffer ends inside the prefix. -/
  | incomplete
  | refused (e : Fault) (read : Nat)
  | complete (value : UInt64) (read : Nat)
  deriving DecidableEq, Repr

/-- Reads on from a decoder that has taken `read` bytes. -/
def scan (d : Decoder) (read : Nat) : Bytes → Front
  | [] => .incomplete
  | b :: rest =>
    match d.push b with
    | (.error e, _) => .refused e (read + 1)
    | (.ok (some value), _) => .complete value (read + 1)
    | (.ok none, d) => scan d (read + 1) rest

/-- Reads a prefix from the front of a buffer. -/
def decode (buffer : Bytes) : Front := scan .start 0 buffer

/-- A prefix has at least one byte, and no more than the buffer. -/
theorem read_of_scan_complete {d : Decoder} {read : Nat} {buffer : Bytes} {v : UInt64} {n : Nat}
    (h : scan d read buffer = .complete v n) : read < n ∧ n ≤ read + buffer.length := by
  induction buffer generalizing d read with
  | nil => simp [scan] at h
  | cons b rest ih =>
    unfold scan at h
    split at h
    · cases h
    · cases h
      simp only [List.length_cons]
      omega
    · have := ih h
      simp only [List.length_cons]
      omega

end Varint

end TreeReplica
