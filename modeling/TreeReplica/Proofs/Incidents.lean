import TreeReplica.Proofs.Endures

/-! What happens to transfers, incident by incident. An incident is an event, or a chunk that meets a mishap
    of the disk. It leaves alone the transfers that it is not about (`Node.Orderly.unconcerned`), and a
    transfer that it ends loses its staging file (`Node.Orderly.ends`). Which incidents end a transfer is
    listed (`Node.Incident.Ends`), and just these do (`Node.Orderly.ends_iff`). -/

namespace TreeReplica
open Volume

/-! ### Ending many transfers -/

theorem Volume.Cleared.discard {v : Volume} {l : Location} (hc : v.Cleared l) (h : Handle) :
    (v.discard h).Cleared l := by
  intro id content he
  by_cases hl : l = h.location
  · exact cleared_discard v h id content (hl ▸ he)
  · exact hc id content ((discard_kept v h).file_back hl he)

theorem Transfers.cleared_abandonAll (ts : Transfers) (v : Volume) {t : Transfer} (ht : t ∈ ts.values) :
    (ts.abandonAll v).Cleared t.staging.location := by
  have stays : ∀ (all : List Transfer) (v : Volume) {l : Location}, v.Cleared l →
      (all.foldl (fun v t => t.abandon v) v).Cleared l := by
    intro all
    induction all with
    | nil => exact fun _ _ h => h
    | cons t all ih => exact fun v l h => ih _ (h.discard t.staging)
  unfold Transfers.abandonAll
  generalize ts.values = all at ht
  induction all generalizing v with
  | nil => cases ht
  | cons t' rest ih =>
    rcases List.mem_cons.mp ht with rfl | ht
    · exact stays rest _ (cleared_discard v t.staging)
    · exact ih _ ht

namespace Node

/-! ### What happens -/

/-- A transfer has its staging file here. -/
def StagesAt (n : Node) (l : Location) : Prop :=
  ∃ name path t, (n.session name).transfers.get? path = some t ∧ l = t.staging.location

/-- An event, or a chunk that meets a mishap. -/
inductive Incident
  | event (e : Event)
  | mishap (x : Mishap) (session : String) (chunk : FileChunk)

namespace Incident

def meet : Incident → Node → Volume → Node × Volume
  | event e, n, v => n.step e v
  | mishap x name chunk, n, v => (n.mishap x name chunk v).2

/-- Whether something is about the transfer of a path in a session: a message of the session about the path,
    or the end of the session. -/
def concerns (name path : String) : Incident → Prop
  | event (.message name' m) => name' = name ∧ m.path? = some path
  | event (.close name') => name' = name
  | event (.edit _ _) => False
  | mishap _ name' chunk => name' = name ∧ chunk.path = path

end Incident

section Meets
variable {n : Node} {v : Volume}

/-- Something leaves all transfers and their files alone, or one session handles a message, or one ends. -/
theorem Orderly.meets (ho : n.Orderly v) (i : Incident) :
    ((∀ name, ((i.meet n v).1.session name).transfers = (n.session name).transfers) ∧
        Restaged (fun _ => False) v (i.meet n v).2) ∨
      (∃ name msg answer, Course n.setup.config.chunkSize msg (n.session name).transfers v answer
          ((i.meet n v).1.session name).transfers (i.meet n v).2 ∧
        (∀ name', name ≠ name' → ((i.meet n v).1.session name').transfers = (n.session name').transfers) ∧
        ∀ path, msg.path? = some path → i.concerns name path) ∨
      ∃ name, i = .event (.close name) := by
  cases i with
  | event e =>
    cases e with
    | edit e path => exact Or.inl ⟨fun _ => rfl, report_restaged e n.setup.store path v⟩
    | close name => exact Or.inr (Or.inr ⟨name, rfl⟩)
    | message name msg =>
      exact Or.inr (Or.inl ⟨name, msg, _, message_course ho name msg, fun _ hne => n.message_elsewhere hne msg v,
        fun _ hp => ⟨rfl, hp⟩⟩)
  | mishap x name chunk =>
    refine Or.inr (Or.inl ⟨name, .fileChunk chunk, _, mishap_course ho x name chunk, fun _ hne => ?_,
      fun _ hp => ⟨rfl, ?_⟩⟩)
    · show ((n.mishap x name chunk v).2.1.session _).transfers = _
      rw [n.mishap_elsewhere x hne chunk v]
    · exact Option.some.inj hp

/-- The transfers of a path in a session, and their files, are left alone by all that is not about them. -/
theorem Orderly.unconcerned (ho : n.Orderly v) {name path : String} {t : Transfer}
    (ht : (n.session name).transfers.get? path = some t)
    {i : Incident} (hi : ¬i.concerns name path) :
    ((i.meet n v).1.session name).transfers.get? path = some t ∧
      (i.meet n v).2.lookup t.staging.location = v.lookup t.staging.location := by
  obtain ⟨-, hp, content, hread⟩ := ho.held name path t ht
  have hlook := read?_eq_some.mp hread
  -- The file is the same one as soon as something spares it.
  have same : ∀ {Q : Location → Prop} {w : Volume}, Spares Q v w → ¬Q t.staging.location →
      w.lookup t.staging.location = v.lookup t.staging.location :=
    fun spares hq => (spares.file _ _ _ hp hq hlook).trans hlook.symm
  rcases ho.meets i with ⟨htables, restaged⟩ | ⟨name', msg, answer, course, elsewhere, concerned⟩ | ⟨name', rfl⟩
  · exact ⟨by rw [htables, ht], same restaged.spares id⟩
  · by_cases hname : name' = name
    · subst hname
      have apart : ∀ {key old}, msg.path? = some key → (n.session name').transfers.get? key = some old →
          key ≠ path ∧ t.staging.location ≠ old.staging.location := by
        intro key old hm hold
        have hkey : key ≠ path := fun he => hi (concerned path (he ▸ hm))
        exact ⟨hkey, fun he => hkey (ho.apart ht hold he).2.symm⟩
      cases course with
      | same unchanged restaged _ _ => exact ⟨unchanged ▸ ht, same restaged.spares id⟩
      | gone hm hold differs restaged _ _ =>
        obtain ⟨hkey, hne⟩ := apart hm hold
        exact ⟨by rw [differs.get, if_neg hkey, ht], same restaged.spares hne⟩
      | @begun notice p new hm _ began _ _ _ differs restaged _ _ =>
        have hkey : notice.path ≠ path := fun he => hi (concerned path (by rw [hm, ← he]; rfl))
        refine ⟨by rw [differs.get, if_neg hkey, ht], same restaged.spares fun hq => ?_⟩
        rcases hq with he | ⟨old, hold, he⟩
        · have hfree := began.unused.2
          rw [← he, hlook] at hfree
          cases hfree
        · exact hkey (ho.apart ht hold he).2.symm
      | @fed chunk old hm hold _ _ _ differs hw _ =>
        obtain ⟨hkey, hne⟩ := apart (by rw [hm]; rfl) hold
        refine ⟨by rw [differs.get, if_neg hkey, ht], same (Q := (· = old.staging.location)) ?_ hne⟩
        rw [hw]
        exact (modify_kept _).spares fun _ _ => Or.inr
    · obtain ⟨_, _, -, spares, -⟩ := course.turn.touches (ho.held name')
      rw [elsewhere name hname]
      exact ⟨ht, same spares fun ⟨old, hold, he⟩ => hname (ho.apart ht hold he).1.symm⟩
  · have hne : name' ≠ name := hi
    refine ⟨?_, same (n.close_spares name' v) fun ⟨t', ht', he⟩ => ?_⟩
    · show ((n.close name' v).1.session name).transfers.get? path = some t
      rw [session_close, if_neg hne, ht]
    · obtain ⟨path', hpath'⟩ := (ho.distinct name').get?_of_mem_values ht'
      exact hne (ho.apart ht hpath' he).1.symm

/-- A transfer that something ends has no staging file any more. -/
theorem Orderly.ends (ho : n.Orderly v) {name path : String} {t : Transfer}
    (ht : (n.session name).transfers.get? path = some t) (i : Incident)
    (ended : ∀ t', ((i.meet n v).1.session name).transfers.get? path = some t' → t'.staging ≠ t.staging) :
    (i.meet n v).2.Cleared t.staging.location := by
  rcases ho.meets i with ⟨htables, -⟩ | ⟨name', msg, answer, course, elsewhere, -⟩ | ⟨name', rfl⟩
  · exact absurd rfl (ended t (by rw [htables, ht]))
  · by_cases hname : name' = name
    · subst hname
      have stays : ∀ {key after},
          (n.session name').transfers.Differs ((i.meet n v).1.session name').transfers key after → key = path :=
        fun differs => Decidable.byContradiction fun hkey =>
          ended t (by rw [differs.get, if_neg hkey, ht]) rfl
      cases course with
      | same unchanged _ _ _ => exact absurd rfl (ended t (unchanged ▸ ht))
      | gone _ hold differs _ cleared _ =>
        obtain rfl := stays differs
        cases ht.symm.trans hold
        exact cleared
      | begun _ _ _ _ _ _ differs _ cleared _ =>
        have hkey := stays differs
        exact cleared t (hkey ▸ ht)
      | @fed chunk old _ hold _ _ _ differs _ _ =>
        obtain rfl := stays differs
        cases ht.symm.trans hold
        exact absurd (Transfer.staging_note t chunk) (ended _ (by rw [differs.get, if_pos rfl]))
    · exact absurd rfl (ended t (by rw [elsewhere name hname, ht]))
  · by_cases hname : name' = name
    · subst hname
      exact Transfers.cleared_abandonAll _ v (Table.mem_values_of_get? ht)
    · refine absurd rfl (ended t ?_)
      show ((n.close name' v).1.session name).transfers.get? path = some t
      rw [session_close, if_neg hname, ht]

/-- Only where transfers have their staging files, before or after, does something change what stands at the
    place of one; and where no transfer had its file and one has it then, no file stood. -/
theorem Orderly.restages (ho : n.Orderly v) (i : Incident) :
    Restaged (fun l => n.StagesAt l ∨ (i.meet n v).1.StagesAt l) v (i.meet n v).2 ∧
      ∀ l, (i.meet n v).1.StagesAt l → n.StagesAt l ∨ v.Cleared l := by
  rcases ho.meets i with ⟨htables, restaged⟩ | ⟨name, msg, answer, course, elsewhere, -⟩ | ⟨name, rfl⟩
  · refine ⟨restaged.mono fun _ => False.elim, ?_⟩
    rintro l ⟨name, path, t, ht, hl⟩
    exact Or.inl ⟨name, path, t, by rw [← htables, ht], hl⟩
  · -- A transfer that the message is not about was there before.
    have old : ∀ {key after},
        (n.session name).transfers.Differs ((i.meet n v).1.session name).transfers key after →
        ∀ {name' path t}, ((i.meet n v).1.session name').transfers.get? path = some t →
          (n.session name').transfers.get? path = some t ∨ name = name' ∧ after = some t := by
      intro key after differs name' path t ht
      by_cases hname : name = name'
      · subst hname
        rw [differs.get] at ht
        split at ht
        · exact Or.inr ⟨rfl, ht⟩
        · exact Or.inl ht
      · rw [elsewhere name' hname] at ht
        exact Or.inl ht
    cases course with
    | same unchanged restaged _ _ =>
      refine ⟨restaged.mono fun _ => False.elim, ?_⟩
      rintro l ⟨name', path, t, ht, hl⟩
      refine Or.inl ⟨name', path, t, ?_, hl⟩
      by_cases hname : name = name'
      · subst hname
        rw [← unchanged, ht]
      · rw [← elsewhere name' hname, ht]
    | @gone key t _ hold differs restaged _ _ =>
      refine ⟨restaged.mono fun l hl => Or.inl ⟨name, key, t, hold, hl⟩, ?_⟩
      rintro l ⟨name', path, t', ht, hl⟩
      rcases old differs ht with ht | ⟨-, ht⟩
      · exact Or.inl ⟨name', path, t', ht, hl⟩
      · cases ht
    | @begun notice p t _ _ began _ _ _ differs restaged _ _ =>
      refine ⟨restaged.mono fun l hl => ?_, ?_⟩
      · rcases hl with hl | ⟨old, hold, hl⟩
        · exact Or.inr ⟨name, notice.path, _, by rw [differs.get, if_pos rfl],
            by rw [hl, Transfer.staging_requests]⟩
        · exact Or.inl ⟨name, notice.path, old, hold, hl⟩
      · rintro l ⟨name', path, t', ht, hl⟩
        rcases old differs ht with ht | ⟨-, ht⟩
        · exact Or.inl ⟨name', path, t', ht, hl⟩
        · cases ht
          rw [hl, Transfer.staging_requests]
          exact Or.inr (cleared_of_lookup began.unused.2)
    | @fed chunk t _ hold _ _ _ differs hw _ =>
      have restaged : Restaged (· = t.staging.location) v (i.meet n v).2 :=
        hw ▸ (modify_kept _).restaged fun _ _ => id
      refine ⟨restaged.mono fun l hl => Or.inl ⟨name, _, t, hold, hl⟩, ?_⟩
      rintro l ⟨name', path, t', ht, hl⟩
      rcases old differs ht with ht | ⟨-, ht⟩
      · exact Or.inl ⟨name', path, t', ht, hl⟩
      · cases ht
        exact Or.inl ⟨name, _, t, hold, by rw [hl, Transfer.staging_note]⟩
  · refine ⟨((n.session name).transfers.abandonAll_kept v).restaged ?_, ?_⟩
    · rintro l - ⟨t, ht, hl⟩
      obtain ⟨path, hpath⟩ := (ho.distinct name).get?_of_mem_values ht
      exact Or.inl ⟨name, path, t, hpath, hl⟩
    · rintro l ⟨name', path, t, ht, hl⟩
      exact Or.inl ⟨name', path, t, (ho.closed ht).1, hl⟩

end Meets

/-! ### What ends a transfer -/

end Node

section Chunks
variable {ts : Transfers} {t : Transfer} {chunk : FileChunk}

theorem Transfer.exists_request (hz : t.size ≠ 0) (chunkSize : UInt32) :
    ∃ request, request ∈ (t.requests chunkSize).1 := by
  have hsize : t.size.toNat ≠ 0 := fun he => hz (UInt64.toNat_inj.mp he)
  have hstep : 0 < max chunkSize.toNat 1 := Nat.lt_of_lt_of_le Nat.one_pos (Nat.le_max_right _ _)
  have hfirst : 0 < (t.size.toNat + max chunkSize.toNat 1 - 1) / max chunkSize.toNat 1 :=
    Nat.div_pos (by omega) hstep
  exact ⟨_, List.mem_map_of_mem (List.mem_map_of_mem (List.mem_range.mpr hfirst))⟩

theorem Transfers.get?_drop (ts : Transfers) (path : String) (v : Volume) :
    (ts.drop path v).1.get? path = none := by
  unfold Transfers.drop
  split
  · rw [Table.get?_erase, if_pos rfl]
  · assumption

/-- A transfer is gone with a chunk that ends it, and notes any other one. -/
theorem Store.get?_receiveChunkAmid (x : Option Mishap) (s : Store) (v : Volume)
    (ht : ts.get? chunk.path = some t) :
    (t.EndedBy x chunk ∧ (s.receiveChunkAmid x chunk ts v).2.1.get? chunk.path = none) ∨
      (¬t.EndedBy x chunk ∧ (s.receiveChunkAmid x chunk ts v).2.1.get? chunk.path = some (t.note chunk).2) := by
  rcases s.receiveChunkAmid_cases x chunk ts v with ⟨hn, -⟩ | ⟨t', ht', ⟨ended, answer, w, hw, -⟩ |
    ⟨hf, hd, hx, ⟨hc, hw⟩ | ⟨hc, answer, w, -, hw⟩⟩⟩
  · rw [ht] at hn
    cases hn
  all_goals cases ht.symm.trans ht'
  · rw [hw]
    exact Or.inl ⟨ended, ts.get?_drop chunk.path w⟩
  · rw [hw]
    refine Or.inr ⟨fun ended => ?_, by rw [Table.get?_insert, if_pos rfl]⟩
    cases ended with
    | refusal he => exact hd he
    | rejected he =>
      rw [hf] at he
      cases he
    | unwritten he => exact hx _ _ he
    | completed he =>
      rw [hc] at he
      cases he
  · rw [hw]
    exact Or.inl ⟨.completed hc, by rw [Table.get?_erase, if_pos rfl]⟩

end Chunks

namespace Node
variable {n : Node} {v : Volume} {name path : String} {t : Transfer} {i : Incident}

/-- What ends a session's transfer of a path: the end of the session, a nack of the path, a chunk that ends
    it, whether or not it meets a mishap, and a notice of the path whose content is asked for. A message that
    the session does not hear ends nothing. -/
inductive Incident.Ends (n : Node) (v : Volume) (name path : String) (t : Transfer) : Incident → Prop
  | close : Ends n v name path t (.event (.close name))
  | nack {nack : Nack} (hp : nack.path = path) (heard : (n.session name).gated n.setup (.nack nack) = false) :
    Ends n v name path t (.event (.message name (.nack nack)))
  | chunk {chunk : FileChunk} (hp : chunk.path = path)
    (heard : (n.session name).gated n.setup (.fileChunk chunk) = false) (ended : t.EndedBy none chunk) :
    Ends n v name path t (.event (.message name (.fileChunk chunk)))
  | mishap {x : Mishap} {chunk : FileChunk} (hp : chunk.path = path) (ended : t.EndedBy (some x) chunk) :
    Ends n v name path t (.mishap x name chunk)
  | superseded {notice : NewVersion} {answer : Answer} {request : ChunkRequest} (hp : notice.path = path)
    (answered : (n.answer name (.newVersion notice) v).1 = .ok answer)
    (asked : .requestChunk request ∈ answer.replies) :
    Ends n v name path t (.event (.message name (.newVersion notice)))

/-- After something the session has the transfer of the path no more, though it may have another one. -/
def Incident.Ended (i : Incident) (n : Node) (v : Volume) (name path : String) (t : Transfer) : Prop :=
  ∀ t', ((i.meet n v).1.session name).transfers.get? path = some t' → t'.staging ≠ t.staging

theorem heard_transfers (n : Node) (name : String) (m : Message) (v : Volume) :
    ((n.step (.message name m) v).1.session name).transfers = if (n.session name).gated n.setup m then
      (n.session name).transfers else ((n.session name).handle n.setup m v).2.1.transfers := by
  rw [n.message_transfers name m v name, if_pos rfl]
  rcases (n.session name).answer_cases n.setup m v with ⟨hg, nack, -, h⟩ |
    ⟨hg, a, s', w, hh, ⟨answer, -, h⟩ | ⟨e, answer, -, h, -⟩⟩ <;> rw [hg, h]
  · rfl
  all_goals rw [hh]; rfl

theorem mishap_transfers (x : Mishap) (n : Node) (name : String) (chunk : FileChunk) (v : Volume) :
    ((n.mishap x name chunk v).2.1.session name).transfers =
      (n.setup.store.receiveChunkAmid (some x) chunk (n.session name).transfers v).2.1 := by
  unfold Node.mishap
  dsimp only
  rw [session_setSession, if_pos rfl]

/-- Only what is listed ends a transfer. -/
theorem Orderly.ends_of_ended (ho : n.Orderly v) (ht : (n.session name).transfers.get? path = some t)
    (ended : i.Ended n v name path t) : i.Ends n v name path t := by
  have concerned : i.concerns name path := Classical.byContradiction fun hi => ended t (ho.unconcerned ht hi).1 rfl
  cases i with
  | event e =>
    cases e with
    | edit e path => exact concerned.elim
    | close name' =>
      obtain rfl : name' = name := concerned
      exact .close
    | message name' m =>
      obtain ⟨rfl, hm⟩ := concerned
      have after := n.heard_transfers name' m v
      cases hg : (n.session name').gated n.setup m with
      | true =>
        rw [hg, if_pos rfl] at after
        exact absurd rfl (ended t (after ▸ ht))
      | false =>
        rw [hg, if_neg Bool.false_ne_true] at after
        cases m with
        | nack nack => exact .nack (Option.some.inj hm) hg
        | fileChunk chunk =>
          obtain rfl : chunk.path = path := Option.some.inj hm
          rcases n.setup.store.get?_receiveChunkAmid none v ht with ⟨he, -⟩ | ⟨-, hget⟩
          · exact .chunk rfl hg he
          · rw [Store.receiveChunkAmid_none] at hget
            exact absurd (Transfer.staging_note t chunk) (ended _ ((congrArg (·.get? chunk.path) after).trans hget))
        | newVersion notice =>
          obtain rfl : notice.path = path := Option.some.inj hm
          -- The announcement is heard and no more, unless all of its content is asked for.
          have stays : ∀ {answer w},
            n.setup.store.announced n.setup.config.chunkSize notice (n.session name').transfers v =
              (answer, (n.session name').transfers, w) → False := fun hw =>
            ended t ((congrArg (·.get? notice.path) (after.trans (congrArg (·.2.1) hw))).trans ht) rfl
          rcases n.setup.store.announced_cases n.setup.config.chunkSize notice (n.session name').transfers v with
            ⟨e, w, -, hw⟩ | ⟨σ, fresh, r, w, ⟨answer, hw, -⟩ | ⟨p, new, -, hz, hw, -, began, -⟩ |
            ⟨p, new, r', replies, file, content, -, -, hw, -⟩⟩
          · exact (stays hw).elim
          · exact (stays hw).elim
          · obtain ⟨request, hr⟩ := Transfer.exists_request (began.size ▸ hz) n.setup.config.chunkSize
            have answered : (n.answer name' (.newVersion notice) v).1 =
                .ok (.all ((new.requests n.setup.config.chunkSize).1.map .requestChunk)) := by
              simp only [answer, Session.answer, hg, Session.handle, hw]
              rfl
            exact .superseded rfl answered (List.mem_map_of_mem hr)
          · exact (stays hw).elim
        | subscribe text =>
          have same := after.trans ((n.session name').transfers_subscribe n.setup text)
          exact absurd rfl (ended t (same ▸ ht))
        | _ => exact absurd rfl (ended t (after ▸ ht))
  | mishap x name' chunk =>
    obtain ⟨rfl, rfl⟩ := concerned
    rcases n.setup.store.get?_receiveChunkAmid (some x) v ht with ⟨he, -⟩ | ⟨-, hget⟩
    · exact .mishap rfl he
    · have after := mishap_transfers x n name' chunk v
      exact absurd (Transfer.staging_note t chunk) (ended _ ((congrArg (·.get? chunk.path) after).trans hget))

theorem ended_of_none (h : ((i.meet n v).1.session name).transfers.get? path = none) : i.Ended n v name path t :=
  fun t' ht' => by
    rw [h] at ht'
    cases ht'

/-- All that is listed does end a transfer. -/
theorem Orderly.ended_of_ends (ho : n.Orderly v) (ht : (n.session name).transfers.get? path = some t)
    (ends : i.Ends n v name path t) : i.Ended n v name path t := by
  cases ends with
  | close =>
    refine ended_of_none ?_
    show ((n.close name v).1.session name).transfers.get? path = none
    rw [session_close, if_pos rfl]
    rfl
  | @nack nack hp heard =>
    subst hp
    have after := n.heard_transfers name (.nack nack) v
    rw [heard, if_neg Bool.false_ne_true] at after
    exact ended_of_none ((congrArg (·.get? nack.path) after).trans (Transfers.get?_drop _ _ v))
  | @chunk chunk hp heard ended =>
    subst hp
    have after := n.heard_transfers name (.fileChunk chunk) v
    rw [heard, if_neg Bool.false_ne_true] at after
    rcases n.setup.store.get?_receiveChunkAmid none v ht with ⟨-, hget⟩ | ⟨goesOn, -⟩
    · rw [Store.receiveChunkAmid_none] at hget
      exact ended_of_none ((congrArg (·.get? chunk.path) after).trans hget)
    · exact absurd ended goesOn
  | @mishap x chunk hp ended =>
    subst hp
    rcases n.setup.store.get?_receiveChunkAmid (some x) v ht with ⟨-, hget⟩ | ⟨goesOn, -⟩
    · have after := mishap_transfers x n name chunk v
      exact ended_of_none ((congrArg (·.get? chunk.path) after).trans hget)
    · exact absurd ended goesOn
  | @superseded notice answer request hp answered asked =>
    subst hp
    have course := message_course ho name (.newVersion notice)
    rw [answered] at course
    intro t' ht'
    cases course with
    | same _ _ silent _ => exact absurd asked (silent answer rfl request)
    | gone _ _ _ _ _ silent => exact absurd asked (silent answer rfl request)
    | @begun notice' p new hm _ began _ _ _ differs _ _ _ =>
      cases hm
      have hnew := (differs.get notice.path).symm.trans ht'
      rw [if_pos rfl] at hnew
      cases hnew
      -- The transfer has its file, so the new one did not get that place.
      obtain ⟨-, -, content, hread⟩ := ho.held name notice.path t ht
      intro he
      have hfree := began.unused.2
      rw [← Transfer.staging_requests new n.setup.config.chunkSize, he, read?_eq_some.mp hread] at hfree
      cases hfree
    | fed hm _ _ _ _ _ _ _ => cases hm

/-- A transfer is ended by what is listed, and by nothing else. -/
theorem Orderly.ends_iff (ho : n.Orderly v) (ht : (n.session name).transfers.get? path = some t) :
    i.Ends n v name path t ↔ i.Ended n v name path t :=
  ⟨ho.ended_of_ends ht, ho.ends_of_ended ht⟩

end Node

end TreeReplica
