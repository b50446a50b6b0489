import TreeReplica.Proofs.Transfer

/-! What a transfer has gathered. As long as every chunk that it takes is a piece of the same bytes, its
    staging file has these bytes wherever chunks have arrived (`Gathers.note`), and so all of them once the
    transfer is complete (`Gathers.complete`). -/

namespace TreeReplica
open Volume

namespace Content

theorem getElem?_write {c : Content} {offset : Nat} {data : Bytes}
    (h : offset + data.length ≤ c.toList.length) (i : Nat) :
    (c.write offset data).toList[i]? =
      if offset ≤ i ∧ i < offset + data.length then data[i - offset]? else c.toList[i]? := by
  have hlen : (c.toList.take offset).length = offset := by
    rw [List.length_take]
    omega
  rw [toList_write, Nat.sub_eq_zero_of_le (by omega), List.replicate_zero, List.append_nil]
  by_cases hbefore : i < offset
  · rw [List.getElem?_append_left (by omega), List.getElem?_take_of_lt hbefore, if_neg (by omega)]
  rw [List.getElem?_append_right (by omega), hlen]
  by_cases hin : i < offset + data.length
  · rw [List.getElem?_append_left (by omega), if_pos (by omega)]
  · rw [List.getElem?_append_right (by omega), List.getElem?_drop, if_neg (by omega)]
    congr 1
    omega

theorem length_write {c : Content} {offset : Nat} {data : Bytes} (h : offset + data.length ≤ c.toList.length) :
    (c.write offset data).toList.length = c.toList.length := by
  rw [toList_write]
  simp only [List.length_append, List.length_take, List.length_replicate, List.length_drop]
  omega

end Content

namespace Transfer

/-- Wherever chunks have arrived the staging file has these bytes. -/
structure Gathers (t : Transfer) (w : Volume) (bytes : Bytes) : Prop where
  size : t.size.toNat = bytes.length
  apart : Ranges.Apart t.received
  staged : ∃ content, w.read? t.staging = some content ∧ content.toList.length = bytes.length ∧
    ∀ i, Ranges.Holds t.received i → content.toList[i]? = bytes[i]?

section Gathers
variable {t : Transfer} {v w : Volume} {bytes : Bytes} {chunk : FileChunk}

theorem Begun.gathers {notice : NewVersion} {p : Pull} (b : Begun notice p v w t)
    (hs : notice.size.toNat = bytes.length) :
    t.Gathers w bytes := by
  obtain ⟨content, hread, hblank⟩ := b.blank
  refine ⟨b.size ▸ hs, by rw [b.received]; trivial, content, hread, by simp [hblank, hs], fun i hi => ?_⟩
  rw [b.received] at hi
  obtain ⟨p, hp, -⟩ := hi
  cases hp

theorem Gathers.of_read? (g : t.Gathers v bytes) (hr : w.read? t.staging = v.read? t.staging) :
    t.Gathers w bytes := by
  obtain ⟨content, hread, hrest⟩ := g.staged
  exact ⟨g.size, g.apart, content, by rw [hr, hread], hrest⟩

theorem client_of_fault? (hf : t.fault? chunk = none) : chunk.client = t.client := by
  unfold fault? at hf
  split at hf
  · cases hf
  · rename_i hc
    simpa using hc

theorem stopOf_eq (hs : t.size.toNat = bytes.length) (hf : t.fault? chunk = none)
    (hd : chunk.data <+: bytes.drop chunk.offset.toNat) :
    stopOf chunk = chunk.offset.toNat + chunk.data.length ∧ stopOf chunk ≤ bytes.length := by
  have hlen := hd.length_le
  rw [List.length_drop] at hlen
  have hle := stopOf_le_of_fault? hf
  have hoff := chunk.offset.toNat_lt_size
  have hsize := t.size.toNat_lt_size
  unfold stopOf at hle ⊢
  omega

theorem Gathers.note (g : t.Gathers w bytes) (hf : t.fault? chunk = none)
    (hd : chunk.data <+: bytes.drop chunk.offset.toNat) :
    (t.note chunk).2.Gathers (w.modify t.staging (·.write chunk.offset.toNat chunk.data)) bytes := by
  obtain ⟨outstanding, hn⟩ := t.note_snd chunk
  obtain ⟨hstop, hle⟩ := stopOf_eq g.size hf hd
  obtain ⟨content, hread, hlen, hsame⟩ := g.staged
  rw [hn]
  refine ⟨g.size, g.apart.cover, content.write chunk.offset.toNat chunk.data, ?_, ?_, fun i hi => ?_⟩
  · rw [read?_eq_some, lookup_modify, hread]
    exact if_pos rfl
  · rw [Content.length_write (by omega), hlen]
  · rw [Content.getElem?_write (by omega)]
    split
    · rename_i hin
      obtain ⟨rest, hrest⟩ := hd
      have : bytes[i]? = (bytes.drop chunk.offset.toNat)[i - chunk.offset.toNat]? := by
        rw [List.getElem?_drop]
        congr 1
        omega
      rw [this, ← hrest, List.getElem?_append_left (by omega)]
    · rename_i hout
      rcases (Ranges.mem_cover g.apart i).mp hi with hi | hi
      · exact hsame i hi
      · omega

/-- In a complete transfer every offset has arrived. -/
theorem holds_of_complete (hc : t.complete = true) {i : Nat} (hi : i < t.size.toNat) : Ranges.Holds t.received i :=
  Ranges.holds_of_full hc hi

/-- A complete transfer has all of the bytes. -/
theorem Gathers.complete (g : t.Gathers w bytes) (hc : t.complete = true) :
    ∃ content, w.read? t.staging = some content ∧ content.toList = bytes := by
  obtain ⟨content, hread, hlen, hsame⟩ := g.staged
  refine ⟨content, hread, List.ext_getElem? fun i => ?_⟩
  by_cases hi : i < bytes.length
  · exact hsame i (holds_of_complete hc (by rw [g.size]; exact hi))
  · rw [List.getElem?_eq_none (by omega), List.getElem?_eq_none (by omega)]

end Gathers

end Transfer

end TreeReplica
