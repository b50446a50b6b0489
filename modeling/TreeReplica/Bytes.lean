/-!
Bytes of words and of text. Main statements: `littleValue_littleBytes` and `littleBytes_littleValue`
say that writing and reading a word of a given width undo each other, in either byte order, and
`text?_utf8` says the same of text. -/

namespace TreeReplica

abbrev Bytes := List UInt8

namespace Bytes

/-! ### Words -/

/-- The `width` low bytes of a number, least significant first. -/
def littleBytes : Nat → Nat → Bytes
  | 0, _ => []
  | width + 1, n => UInt8.ofNat (n % 256) :: littleBytes width (n / 256)

/-- The number whose bytes these are, least significant first. -/
def littleValue : Bytes → Nat
  | [] => 0
  | b :: rest => b.toNat + 256 * littleValue rest

/-- The `width` low bytes of a number, most significant first. -/
def bigBytes (width n : Nat) : Bytes := (littleBytes width n).reverse

/-- The number whose bytes these are, most significant first. -/
def bigValue (bytes : Bytes) : Nat := littleValue bytes.reverse

@[simp]
theorem length_littleBytes (width n : Nat) : (littleBytes width n).length = width := by
  induction width generalizing n with
  | zero => rfl
  | succ width ih => simp [littleBytes, ih]

@[simp]
theorem length_bigBytes (width n : Nat) : (bigBytes width n).length = width := by
  simp [bigBytes]

theorem littleValue_littleBytes (width n : Nat) : littleValue (littleBytes width n) = n % Nat.pow 256 width := by
  induction width generalizing n with
  | zero => simp [littleBytes, littleValue, Nat.mod_one]
  | succ width ih =>
    have hb : (UInt8.ofNat (n % 256)).toNat = n % 256 := by
      rw [UInt8.toNat_ofNat_of_lt']
      simp only [UInt8.size]
      omega
    rw [littleBytes, littleValue, ih, hb,
      show Nat.pow 256 (width + 1) = 256 * Nat.pow 256 width from Nat.mul_comm _ _,
      Nat.mod_mul]

theorem littleValue_lt (bytes : Bytes) : littleValue bytes < Nat.pow 256 bytes.length := by
  induction bytes with
  | nil => simp [littleValue]
  | cons b rest ih =>
    have hb := b.toNat_lt
    have hp : Nat.pow 256 (b :: rest).length = Nat.pow 256 rest.length * 256 := rfl
    rw [littleValue, hp]
    omega

theorem littleBytes_littleValue (bytes : Bytes) : littleBytes bytes.length (littleValue bytes) = bytes := by
  induction bytes with
  | nil => rfl
  | cons b rest ih =>
    have hb : b.toNat < 256 := b.toNat_lt
    have hm : (b.toNat + 256 * littleValue rest) % 256 = b.toNat := by omega
    have hd : (b.toNat + 256 * littleValue rest) / 256 = littleValue rest := by omega
    simp [littleBytes, littleValue, hm, hd, ih]

theorem bigValue_bigBytes (width n : Nat) : bigValue (bigBytes width n) = n % Nat.pow 256 width := by
  simp [bigValue, bigBytes, littleValue_littleBytes]

theorem bigBytes_bigValue (bytes : Bytes) : bigBytes bytes.length (bigValue bytes) = bytes := by
  have h := littleBytes_littleValue bytes.reverse
  simp only [List.length_reverse] at h
  simp [bigBytes, bigValue, h]

theorem bigValue_lt (bytes : Bytes) : bigValue bytes < Nat.pow 256 bytes.length := by
  simpa [bigValue] using littleValue_lt bytes.reverse

/-! ### Text -/

/-- The UTF-8 form of a text. -/
def ofText (text : String) : Bytes := text.toByteArray.data.toList

/-- The text that has this UTF-8 form, if there is one. -/
def text? (bytes : Bytes) : Option String := String.fromUTF8? ⟨bytes.toArray⟩

theorem text?_ofText (text : String) : text? (ofText text) = some text := by
  unfold text? ofText String.fromUTF8?
  simp [text.isValidUTF8, String.fromUTF8]

theorem ofText_of_text? {bytes : Bytes} {text : String} (h : text? bytes = some text) :
    ofText text = bytes := by
  unfold text? String.fromUTF8? at h
  split at h
  · simp only [Option.some.injEq] at h
    subst h
    simp [ofText, String.fromUTF8]
  · cases h

@[simp]
theorem length_ofText (text : String) : (ofText text).length = text.utf8ByteSize := by
  rw [ofText, Array.length_toList]
  rfl

end Bytes

end TreeReplica
