import TreeReplica.Wire.Message

/-! What a message can carry. A text that is too long for its length field is cut to its longest beginning
    that is not (`Text.cut_fit`), and a message whose texts are short enough stays as it is
    (`Message.fitted_of_texts`). -/

namespace TreeReplica

/-! ### Texts -/

namespace Text

/-- The longest beginning of a text that has at most `limit` bytes. A beginning ends behind a whole character. -/
structure Cut (text cut : String) : Prop where
  beginning : cut.toList <+: text.toList
  short : cut.utf8ByteSize ≤ limit
  longest : ∀ other : String, other.toList <+: text.toList → other.utf8ByteSize ≤ limit →
    other.toList <+: cut.toList

theorem sizeChars_eq (chars : List Char) : sizeChars chars = (String.ofList chars).utf8ByteSize := by
  induction chars with
  | nil => rfl
  | cons c rest ih =>
    rw [String.ofList_cons, String.utf8ByteSize_append, String.utf8ByteSize_singleton, ← ih]
    rfl

theorem sizeChars_toList (text : String) : sizeChars text.toList = text.utf8ByteSize := by
  rw [sizeChars_eq, String.ofList_toList]

/-- A beginning that fits is no longer than the one that is kept. -/
theorem prefix_fitChars {room : Nat} {chars other : List Char} (h : other <+: chars)
    (hsize : sizeChars other ≤ room) :
    other <+: fitChars room chars := by
  induction chars generalizing room other with
  | nil =>
    rw [List.prefix_nil.mp h]
    exact List.nil_prefix
  | cons c rest ih =>
    cases other with
    | nil => exact List.nil_prefix
    | cons d tail =>
      obtain ⟨rfl, htail⟩ := List.cons_prefix_cons.mp h
      have hsum : d.utf8Size + sizeChars tail ≤ room := hsize
      rw [fitChars, if_pos (by omega)]
      exact List.cons_prefix_cons.mpr ⟨rfl, ih htail (by omega)⟩

theorem sizeChars_replicate (n : Nat) (c : Char) : sizeChars (List.replicate n c) = n * c.utf8Size := by
  induction n with
  | zero => rw [Nat.zero_mul]; rfl
  | succ n ih =>
    show c.utf8Size + sizeChars (List.replicate n c) = _
    rw [ih, Nat.succ_mul, Nat.add_comm]

/-- As many characters of one kind are kept as there is room for. -/
theorem fitChars_replicate (c : Char) (room n : Nat) :
    fitChars room (List.replicate n c) = List.replicate (min n (room / c.utf8Size)) c := by
  have hpos : 0 < c.utf8Size := c.utf8Size_pos
  induction n generalizing room with
  | zero => rw [Nat.zero_min]; rfl
  | succ n ih =>
    rw [List.replicate_succ, fitChars]
    split
    · rename_i hroom
      have hdiv : room / c.utf8Size = (room - c.utf8Size) / c.utf8Size + 1 := Nat.div_eq_sub_div hpos hroom
      rw [ih, hdiv, Nat.succ_min_succ, List.replicate_succ]
    · rename_i hroom
      rw [Nat.div_eq_of_lt (by omega), Nat.min_zero]
      rfl

theorem fit_replicate {n : Nat} {c : Char} (h : limit < n * c.utf8Size) :
    fit (.ofList (List.replicate n c)) = .ofList (List.replicate (limit / c.utf8Size) c) := by
  have hlong : ¬ (String.ofList (List.replicate n c)).utf8ByteSize ≤ limit := by
    rw [← sizeChars_eq, sizeChars_replicate]
    omega
  have hkept : limit / c.utf8Size ≤ n := Nat.le_of_lt (Nat.div_lt_of_lt_mul (by rwa [Nat.mul_comm]))
  rw [fit, if_neg hlong, String.toList_ofList, fitChars_replicate, Nat.min_eq_right hkept]

theorem cut_fit (text : String) : Cut text (fit text) := by
  unfold fit
  split
  · rename_i hshort
    exact ⟨List.prefix_refl _, hshort, fun _ h _ => h⟩
  · refine ⟨?_, ?_, fun other h hsize => ?_⟩
    · rw [String.toList_ofList]
      exact fitChars_prefix limit _
    · rw [← sizeChars_eq]
      exact sizeChars_fitChars_le limit _
    · rw [String.toList_ofList]
      exact prefix_fitChars h (by rwa [sizeChars_toList])

theorem utf8ByteSize_fit_le (text : String) : (fit text).utf8ByteSize ≤ limit := (cut_fit text).short

@[simp]
theorem fit_fit (text : String) : fit (fit text) = fit text := fit_of_le (utf8ByteSize_fit_le text)

end Text

/-! ### Messages -/

namespace Message

/-- The texts of a message, each behind a 16-bit length in its payload. -/
def texts : Message → List String
  | auth peer _ => [peer]
  | subscribe path | unsubscribe path | commit path _ => [path]
  | newVersion m => [m.path]
  | requestChunk m => [m.path]
  | fileChunk m => [m.path]
  | nack m => [m.path, m.text]
  | _ => []

/-- The blobs of a message, each behind a 32-bit length in its payload. -/
def blobs : Message → List Bytes
  | keyExchange key | keyExchangeReply key => [key]
  | auth _ proof => [proof]
  | fileChunk m => [m.data]
  | _ => []

/-- Every text and every blob has a length that its field can say. -/
structure Carried (m : Message) : Prop where
  texts : ∀ text ∈ m.texts, text.utf8ByteSize ≤ Text.limit
  blobs : ∀ blob ∈ m.blobs, blob.length < UInt32.size

variable {m : Message}

@[simp]
theorem texts_fitted (m : Message) : m.fitted.texts = m.texts.map Text.fit := by cases m <;> rfl

@[simp]
theorem blobs_fitted (m : Message) : m.fitted.blobs = m.blobs := by cases m <;> rfl

theorem carried_fitted (h : ∀ blob ∈ m.blobs, blob.length < UInt32.size) : m.fitted.Carried where
  texts text ht := by
    rw [texts_fitted] at ht
    obtain ⟨whole, -, rfl⟩ := List.mem_map.mp ht
    exact Text.utf8ByteSize_fit_le whole
  blobs blob hb := h blob (by rwa [blobs_fitted] at hb)

theorem fitted_of_texts (h : ∀ text ∈ m.texts, text.utf8ByteSize ≤ Text.limit) : m.fitted = m := by
  have fit : ∀ text ∈ m.texts, Text.fit text = text := fun text ht => Text.fit_of_le (h text ht)
  cases m <;> simp_all [fitted, texts, Nack.fitted]

theorem fitted_nack (code : NackCode) (path text : String) :
    (nack (.fitted code path text)).fitted = nack (.fitted code path text) := by
  simp [fitted, Nack.fitted]

end Message

end TreeReplica
