import TreeReplica.LocalEdit
import TreeReplica.Proofs.Fetching
import TreeReplica.Proofs.Node
import TreeReplica.Proofs.Sample
import TreeReplica.Proofs.Stream

/-! Chunks as frames. A configuration leaves `Config.headroom` bytes of a message to what a chunk needs
    besides its data. A served chunk needs 23 bytes and its path (`FileChunk.length_encode`), and a path may
    be longer than what the headroom then leaves. A chunk with such a path may be refused by every peer of the
    same configuration (`Tracked.chunk_refused`). -/

namespace TreeReplica
open Volume

/-! ### What is served -/

namespace Store
variable {v w : Volume} {file : String} {bytes : Bytes} {chunkSize : UInt32} {request : ChunkRequest}
  {chunk : FileChunk}

theorem length_le_of_readBytes {offset : UInt64} {size : UInt32} (h : readBytes v file offset size = .ok bytes) :
    bytes.length ≤ size.toNat := by
  unfold readBytes at h
  split at h
  · cases h
  · split at h <;> cases h
    exact Nat.zero_le _
  · dsimp only at h
    split at h
    · cases h
    · cases h
      rw [Content.slice_eq, List.length_drop, List.length_take]
      omega

/-- A served chunk is about the path that was asked for, and has no more bytes than were asked for and than
    the configuration allows. -/
theorem served_of_serveChunk {s : Store} (h : s.serveChunk chunkSize request v = (.ok (.fileChunk chunk), w)) :
    chunk.path = request.path ∧ request.path.utf8ByteSize ≤ Path.maxLength ∧
      chunk.data.length ≤ (min request.size chunkSize).toNat := by
  rcases s.serveChunk_cases chunkSize request v with ⟨e, he⟩ | ⟨e, w', -, he⟩ |
    ⟨σ, fresh, r, w', answer, he, -, hreply⟩
  · rw [h] at he
    cases he
  · rw [h] at he
    cases he
  · rw [h] at he
    cases he
    obtain ⟨file, bytes, hres, hchunk, hread⟩ := hreply _ rfl
    cases hchunk
    refine ⟨rfl, Path.utf8ByteSize_le_of_resolve hres, ?_⟩
    split at hread
    · exact length_le_of_readBytes hread
    · rw [hread]
      exact Nat.zero_le _

end Store

namespace Session
variable {u : Setup} {s s' : Session} {v w : Volume} {request : ChunkRequest} {chunk : FileChunk} {a : Answer}
  {reply : Message}

/-- A session that answers a request with a chunk has been served it. -/
theorem served_of_answer (h : s.answer u (.requestChunk request) v = (.ok a, s', w))
    (hchunk : .fileChunk chunk ∈ a.replies) :
    u.store.serveChunk u.config.chunkSize request v = (.ok (.fileChunk chunk), w) := by
  rcases answer_cases u (.requestChunk request) s v with ⟨-, nack, -, ha⟩ |
    ⟨-, handled, s₁, w₁, hh, ⟨answer, rfl, ha⟩ | ⟨e, answer, rfl, ha, hfatal⟩⟩
  · rw [h] at ha
    cases ha
    simp [Answer.reply] at hchunk
  · rw [h] at ha
    cases ha
    -- The only reply is the chunk that was served.
    simp only [handle] at hh
    rcases hs : u.store.serveChunk u.config.chunkSize request v with ⟨e | m, w₂⟩
    · rw [hs] at hh
      cases hh
    · rw [hs] at hh
      cases hh
      obtain rfl := List.mem_singleton.mp hchunk
      rfl
  · rw [h] at ha
    cases ha
    rcases hfatal with ⟨-, hanswer⟩ | ⟨-, nack, -, hanswer⟩ <;> cases hanswer
    simp [Answer.reply] at hchunk

theorem answer_of_served (hg : gated u (.requestChunk request) s = false)
    (h : u.store.serveChunk u.config.chunkSize request v = (.ok reply, w)) :
    s.answer u (.requestChunk request) v = (.ok (.reply reply), s, w) := by
  simp [answer, hg, handle, h, Except.map]

end Session

/-! ### Its frame -/

theorem Config.room_of_validate {c : Config} (h : c.validate = .ok ()) :
    c.chunkSize.toNat + headroom ≤ c.maxMessageSize.toNat := by
  unfold validate fault? at h
  split at h
  · cases h
  · rename_i hf
    split at hf
    · cases hf
    · split at hf
      · cases hf
      · split at hf
        · cases hf
        · rename_i hroom
          exact Nat.not_lt.mp hroom

namespace FileChunk
variable {chunk : FileChunk}

/-- A chunk whose path can be tracked takes its data, its path, and 23 bytes. -/
theorem length_encode (h : chunk.path.utf8ByteSize ≤ Path.maxLength) :
    (Message.fileChunk chunk).encode.length = 23 + chunk.path.utf8ByteSize + chunk.data.length := by
  have hfit : Text.fit chunk.path = chunk.path := Text.fit_of_le (Nat.le_trans h (by decide))
  simp only [Message.encode, Message.fields, List.length_cons, List.length_append, Payload.length_text,
    Payload.length_word64, Payload.length_blob, hfit]
  omega

/-- Whether a chunk is taken hangs on the length of its payload alone. -/
theorem take_encode (hpath : chunk.path.utf8ByteSize ≤ Path.maxLength)
    (hdata : chunk.data.length < UInt32.size) (limit : UInt64) (more : Bytes) :
    Frame.take limit (Frame.encode (.fileChunk chunk) ++ more) =
      if (Message.fileChunk chunk).encode.length ≤ limit.toNat then .frame (.ok (.fileChunk chunk)) more
      else .refused (.tooLarge (.ofNat (Message.fileChunk chunk).encode.length) limit) := by
  have hfit : (Message.fileChunk chunk).fitted = .fileChunk chunk :=
    Message.fitted_of_texts fun text ht => by
      obtain rfl := List.mem_singleton.mp ht
      exact Nat.le_trans hpath (by decide)
  have hblobs : ∀ blob ∈ (Message.fileChunk chunk).blobs, blob.length < UInt32.size := fun blob hb => by
    obtain rfl := List.mem_singleton.mp hb
    exact hdata
  have hsize : (Message.fileChunk chunk).encode.length < UInt64.size := by
    rw [length_encode hpath]
    simp only [Path.maxLength, UInt32.size, UInt64.size] at hpath hdata ⊢
    omega
  rw [Frame.take_encode hblobs hsize limit more, hfit]

end FileChunk

/-- A chunk that a node serves takes its path and 23 bytes besides the data, and no more data than was asked
    for and is configured. So it is no longer than any message may be if its path leaves 23 bytes of the
    headroom; in any case a peer of the same configuration takes it if it is not longer, and refuses it by its
    length if it is. -/
theorem Session.served_chunk {u : Setup} {s s' : Session} {v w : Volume} {request : ChunkRequest}
    {chunk : FileChunk} {a : Answer} (valid : u.config.validate = .ok ())
    (served : s.answer u (.requestChunk request) v = (.ok a, s', w)) (reply : .fileChunk chunk ∈ a.replies) :
    let payload := (Message.fileChunk chunk).encode
    (chunk.path = request.path ∧ chunk.data.length ≤ min request.size.toNat u.config.chunkSize.toNat ∧
      payload.length = 23 + request.path.utf8ByteSize + chunk.data.length) ∧
    (23 + request.path.utf8ByteSize ≤ Config.headroom → payload.length ≤ u.config.maxMessageSize.toNat) ∧
    ∀ more, Frame.take u.config.maxMessageSize (Frame.encode (.fileChunk chunk) ++ more) =
      if payload.length ≤ u.config.maxMessageSize.toNat then .frame (.ok (.fileChunk chunk)) more
      else .refused (.tooLarge (.ofNat payload.length) u.config.maxMessageSize) := by
  intro payload
  obtain ⟨hpath, hlimit, hdata⟩ := Store.served_of_serveChunk (served_of_answer served reply)
  rw [Fetch.toNat_min] at hdata
  rw [← hpath] at hlimit ⊢
  have hroom := Config.room_of_validate valid
  have hlength : payload.length = 23 + chunk.path.utf8ByteSize + chunk.data.length := FileChunk.length_encode hlimit
  have hsmall : chunk.data.length < UInt32.size := by
    have := u.config.chunkSize.toNat_lt
    simp only [UInt32.size]
    omega
  exact ⟨⟨rfl, hdata, hlength⟩, fun hfits => by omega, FileChunk.take_encode hlimit hsmall u.config.maxMessageSize⟩

/-- A node whose messages are as short as its chunks of four bytes allow. -/
def sampleNarrow : Setup := ⟨{ sampleSetup.config with chunkSize := 4, maxMessageSize := 1028 }, .plaintext []⟩

/-- The sample after an edit was reported, which makes its edit count 1. -/
def sampleReported : Volume := (LocalEdit.report .written sampleSetup.store "a" (sampleVolume [1, 2, 3, 4])).2

theorem sample_served_chunk : sampleNarrow.config.validate = .ok () ∧
    (Session.new.answer sampleNarrow (.requestChunk ⟨"a", 1, 0, 4⟩) sampleReported).1 =
      .ok (.reply (.fileChunk ⟨"a", 1, 0, [1, 2, 3, 4]⟩)) ∧
    ∀ more, Frame.take 1028 (Frame.encode (.fileChunk ⟨"a", 1, 0, [1, 2, 3, 4]⟩) ++ more) =
      .frame (.ok (.fileChunk ⟨"a", 1, 0, [1, 2, 3, 4]⟩)) more := by
  have valid : sampleNarrow.config.validate = .ok () := rfl
  have served : Session.new.answer sampleNarrow (.requestChunk ⟨"a", 1, 0, 4⟩) sampleReported =
    (.ok (.reply (.fileChunk ⟨"a", 1, 0, [1, 2, 3, 4]⟩)), _, _) := rfl
  obtain ⟨-, fits, taken⟩ := Session.served_chunk valid served (List.mem_singleton.mpr rfl)
  have hfits := fits (by decide)
  exact ⟨valid, rfl, fun more => (taken more).trans (if_pos hfits)⟩

/-! ### A longer path -/

/-- A whole chunk of a tracked file is refused by every peer of the same configuration if the path leaves too
    little room. -/
theorem Tracked.chunk_refused {u : Setup} {path : String} {v : Volume} {r : Record} {bytes : Bytes}
    (t : Tracked u.store path v r bytes) (hu : v.locked = []) (hle : bytes.length ≤ lastPage)
    (hfull : u.config.chunkSize.toNat ≤ bytes.length)
    (hlong : u.config.maxMessageSize.toNat < 23 + path.utf8ByteSize + u.config.chunkSize.toNat) {s : Session}
    (hg : Session.gated u (.requestChunk ⟨path, r.client, 0, u.config.chunkSize⟩) s = false) :
    ∃ chunk w, s.answer u (.requestChunk ⟨path, r.client, 0, u.config.chunkSize⟩) v =
      (.ok (.reply (.fileChunk chunk)), s, w) ∧
      (Message.fileChunk chunk).encode.length = 23 + path.utf8ByteSize + u.config.chunkSize.toNat ∧
      ∀ more, Frame.take u.config.maxMessageSize (Frame.encode (.fileChunk chunk) ++ more) =
        .refused (.tooLarge (.ofNat (23 + path.utf8ByteSize + u.config.chunkSize.toNat))
          u.config.maxMessageSize) := by
  obtain ⟨data, hdata, w, served⟩ : ∃ data : Bytes, data.length = u.config.chunkSize.toNat ∧ ∃ w,
      u.store.serveChunk u.config.chunkSize ⟨path, r.client, 0, u.config.chunkSize⟩ v =
        (.ok (.fileChunk ⟨path, r.client, 0, data⟩), w) := by
    have about : (ChunkRequest.mk path r.client 0 u.config.chunkSize).path = path := rfl
    obtain ⟨w, served, -⟩ := t.serves hu hle u.config.chunkSize about rfl
    refine ⟨_, ?_, w, served⟩
    rw [List.length_take, Fetch.toNat_min, Nat.min_self]
    exact Nat.min_eq_left hfull
  have hlimit : path.utf8ByteSize ≤ Path.maxLength := (Store.served_of_serveChunk served).2.1
  have hlength : (Message.fileChunk ⟨path, r.client, 0, data⟩).encode.length =
      23 + path.utf8ByteSize + u.config.chunkSize.toNat := by
    rw [← hdata]
    exact FileChunk.length_encode hlimit
  refine ⟨_, w, Session.answer_of_served hg served, hlength, fun more => ?_⟩
  rw [FileChunk.take_encode hlimit (hdata ▸ u.config.chunkSize.toNat_lt), hlength, if_neg (Nat.not_le.mpr hlong)]

namespace Path

/-- A path behind components that lead nowhere. -/
def dotted : Nat → String → String
  | 0, path => path
  | n + 1, path => "." ++ "/" ++ dotted n path

theorem pieces_dotted (n : Nat) (path : String) : pieces (dotted n path) = List.replicate n "." ++ pieces path := by
  induction n with
  | zero => rfl
  | succ n ih =>
    rw [dotted, pieces_slash, ih]
    rfl

theorem names_dotted (n : Nat) (path : String) : names (dotted n path) = names path := by
  rw [names, pieces_dotted, List.filter_append, List.filter_replicate]
  rfl

theorem absolute_dotted {path : String} (h : absolute path = false) (n : Nat) :
    absolute (dotted n path) = false := by
  cases n with
  | zero => exact h
  | succ n =>
    rw [dotted, String.append_assoc, absolute, head?_toList_append (by decide)]
    rfl

theorem utf8ByteSize_dotted (n : Nat) (path : String) :
    (dotted n path).utf8ByteSize = 2 * n + path.utf8ByteSize := by
  induction n with
  | zero => rw [Nat.mul_zero, Nat.zero_add, dotted]
  | succ n ih =>
    rw [dotted, String.utf8ByteSize_append, String.utf8ByteSize_append, ih]
    show 1 + 1 + _ = _
    omega

theorem fault?_dotted {n : Nat} (h : 2 * n + 1 ≤ maxLength) : fault? (dotted n "a") = none := by
  have hsize : (dotted n "a").utf8ByteSize = 2 * n + 1 := utf8ByteSize_dotted n "a"
  have hne : dotted n "a" ≠ "" := fun he => by
    rw [he] at hsize
    exact absurd hsize (by simp)
  have hnames : names (dotted n "a") = ["a"] := (names_dotted n "a").trans (by decide)
  rw [fault?, if_neg hne, hsize, if_neg (Nat.not_lt.mpr h), absolute_dotted (by decide),
    if_neg Bool.false_ne_true, fileName?, hnames]
  rfl

/-! Below a root, such a path leads to the same file, and beside the same record. -/

theorem pieces_below_dotted (n : Nat) :
    pieces ("r" ++ "/" ++ dotted n "a") = "r" :: (List.replicate n "." ++ ["a"]) := by
  rw [pieces_slash, pieces_dotted]
  rfl

theorem dropName_dotted (n : Nat) : dropName ("r" :: (List.replicate n "." ++ ["a"])) = ["r"] := by
  have hall : trimEnd ("r" :: (List.replicate n "." ++ ["a"])) = "r" :: (List.replicate n "." ++ ["a"]) := by
    rw [trimEnd, ← List.cons_append, List.reverse_append]
    show ((["a"] ++ List.reverse _).dropWhile blank).reverse = _
    rw [List.singleton_append, List.dropWhile_cons_of_neg (by decide), List.reverse_cons, List.reverse_reverse]
  have hfront : ("r" :: (List.replicate n "." ++ ["a"])).dropLast = "r" :: List.replicate n "." := by
    rw [← List.cons_append, List.dropLast_concat]
  -- What is left without the last name ends in components that lead nowhere, and these go too.
  rw [dropName, hall, hfront, trimEnd, List.reverse_cons, List.reverse_replicate,
    List.dropWhile_append_of_pos (fun p hp => (List.eq_of_mem_replicate hp) ▸ rfl)]
  rfl

theorem names_below_dotted (n : Nat) : names ("r" ++ "/" ++ dotted n "a") = ["r", "a"] := by
  rw [names, pieces_slash, List.filter_append, ← names, ← names, names_dotted]
  rfl

theorem sidecar_dotted (n : Nat) : sidecar ("r" ++ "/" ++ dotted n "a") = "r/.a.tsmeta" := by
  have hparent : parent ("r" ++ "/" ++ dotted n "a") = "r" := by
    rw [parent, pieces_below_dotted]
    show "/".intercalate (dropName _) = _
    rw [dropName_dotted]
    rfl
  rw [sidecar, fileName?, names_below_dotted]
  show join (parent _) _ = _
  rw [hparent]
  decide

theorem nul_dotted (n : Nat) : '\x00' ∉ (dotted n "a").toList := by
  induction n with
  | zero => decide
  | succ n ih =>
    rw [dotted, String.toList_append, String.toList_append]
    simp [ih]

end Path

theorem locate_dotted (v : Volume) {n : Nat} (h : 2 * n + 3 ≤ maxText) :
    v.locate ("r" ++ "/" ++ Path.dotted n "a") = v.locate "r/a" := by
  have hsize : ("r" ++ "/" ++ Path.dotted n "a").utf8ByteSize = 2 * n + 3 := by
    rw [String.utf8ByteSize_append, Path.utf8ByteSize_dotted]
    show 2 + (2 * n + 1) = _
    omega
  have hbad : badText? ("r" ++ "/" ++ Path.dotted n "a") = none := by
    have hnul : '\x00' ∉ ("r" ++ "/" ++ Path.dotted n "a").toList := by
      rw [String.toList_append]
      simp [Path.nul_dotted]
    have hne : "r" ++ "/" ++ Path.dotted n "a" ≠ "" := fun he => by
      rw [he] at hsize
      cases hsize
    rw [badText?, if_neg hnul, if_neg hne, hsize, if_neg (Nat.not_lt.mpr h)]
  have hstart : v.start ("r" ++ "/" ++ Path.dotted n "a") = v.start "r/a" := by
    rw [start, Path.absolute, String.append_assoc, Path.head?_toList_append (by decide)]
    rfl
  have hlast : ((Path.pieces ("r" ++ "/" ++ Path.dotted n "a")).filter (· ≠ "")).getLast? = some "a" := by
    rw [Path.pieces_below_dotted, ← List.cons_append, List.filter_append]
    exact List.getLast?_concat
  have hslash : (Path.pieces ("r" ++ "/" ++ Path.dotted n "a")).getLast? = some "a" := by
    rw [Path.pieces_below_dotted, ← List.cons_append]
    exact List.getLast?_concat
  simp only [locate, hbad, Path.names_below_dotted, hlast, hstart, hslash]
  rfl

theorem resolve_dotted {n : Nat} (h : 2 * n + 3 ≤ maxText) :
    Path.resolve "r" (Path.dotted n "a") = .ok ("r" ++ "/" ++ Path.dotted n "a") := by
  have hfault : Path.fault? (Path.dotted n "a") = none :=
    Path.fault?_dotted (by simp only [Path.maxLength, maxText] at h ⊢; omega)
  have hjoin : Path.join "r" (Path.dotted n "a") = "r" ++ "/" ++ Path.dotted n "a" := by
    rw [Path.join, Path.absolute_dotted (by decide)]
    rfl
  rw [Path.resolve, hfault]
  exact congrArg _ hjoin

/-- What is tracked as `a` is tracked under the longer path. -/
theorem Tracked.dotted {n : Nat} {v : Volume} {r : Record} {bytes : Bytes} (t : Tracked ⟨"r"⟩ "a" v r bytes)
    (h : 2 * n + 3 ≤ maxText) : Tracked ⟨"r"⟩ (Path.dotted n "a") v r bytes := by
  obtain ⟨record, file, hfile, hbytes⟩ := t
  obtain rfl : "r/a" = file := Except.ok.inj hfile
  refine ⟨?_, _, resolve_dotted h, ?_⟩
  · rw [← record, Store.recorded?, Store.recorded?, Store.resolve, resolve_dotted h, hfile]
    dsimp only
    rw [Path.sidecar_dotted]
    rfl
  · rw [← hbytes, bytesAt?, bytesAt?, find, find, locate_dotted v h]

/-- The sample under a path of 1003 bytes: its four bytes take a message of 1030 bytes, of which 1028 are
    accepted. -/
theorem sample_chunk_refused : sampleNarrow.config.validate = .ok () ∧
    ∃ chunk w, Session.new.answer sampleNarrow (.requestChunk ⟨Path.dotted 501 "a", 1, 0, 4⟩) sampleReported =
        (.ok (.reply (.fileChunk chunk)), .new, w) ∧
      (Message.fileChunk chunk).encode.length = 1030 ∧
      ∀ more, Frame.take sampleNarrow.config.maxMessageSize (Frame.encode (.fileChunk chunk) ++ more) =
        .refused (.tooLarge 1030 1028) := by
  have short : Tracked sampleNarrow.store "a" sampleReported ⟨0, 1, .dirty⟩ [1, 2, 3, 4] := ⟨rfl, "r/a", rfl, rfl⟩
  have tracked : Tracked sampleNarrow.store (Path.dotted 501 "a") sampleReported ⟨0, 1, .dirty⟩ [1, 2, 3, 4] :=
    short.dotted (by decide)
  have size : 23 + (Path.dotted 501 "a").utf8ByteSize + sampleNarrow.config.chunkSize.toNat = 1030 := by
    rw [Path.utf8ByteSize_dotted]
    rfl
  have refused := tracked.chunk_refused rfl (by decide) (by decide) (by rw [size]; decide) (s := .new) rfl
  rw [size] at refused
  exact ⟨rfl, refused⟩

end TreeReplica
