import TreeReplica.Proofs.History.Records

/-! What an event tells of the record at one site. It can be seen from outside whether the event reported an
    edit, applied a commit, sent one or took over a later base (`Moment.Seen`). The record follows what is
    seen (`Moment.Does`), event by event (`Moment.does`). -/

namespace TreeReplica
open Volume

/-! ### What can be seen of an event -/

/-- One event of a run, with the node and the volume that it met. -/
structure Moment where
  node : Node
  event : Node.Event
  volume : Volume

def Pull.remote? : Pull → Option UInt64
  | catchUp remote => some remote
  | peerEdit _ => none

def Plan.remote? : Plan → Option UInt64
  | pull p => p.remote?
  | _ => none

namespace Moment

def store (x : Moment) : Store := x.node.setup.store

def after (x : Moment) : Volume := (x.node.step x.event x.volume).2

def site? (x : Moment) (path : String) : Option Site := x.store.site? path x.after

/-- What the event was answered, if it is a message and the connection goes on. -/
def answer? (x : Moment) : Option Answer :=
  match x.event with
  | .message name m => (x.node.answer name m x.volume).1.toOption
  | _ => none

/-- The edit of the file at a site that was reported. -/
def edited? (x : Moment) (σ : Site) : Option LocalEdit :=
  match x.event with
  | .edit e path => if (e.report x.store path x.volume).1.isOk ∧ x.site? path = some σ then some e else none
  | _ => none

/-- The commit that was applied to the record at a site. -/
def applied? (x : Moment) (σ : Site) : Option Commit :=
  match x.event with
  | .message _ (.commit path c) => if x.answer? = some .silent ∧ x.site? path = some σ then some c else none
  | _ => none

/-- The commits of the file at a site that were sent. -/
def sent (x : Moment) (σ : Site) : List Commit :=
  (x.answer?.elim [] (·.replies)).filterMap fun
    | .commit path c => if x.site? path = some σ then some c else none
    | _ => none

/-- The later base whose content was put in place at a site: it was announced to have no bytes, or its last
    chunk came. -/
def caughtUp? (x : Moment) (σ : Site) : Option UInt64 :=
  if x.answer? = some .silent then
    match x.event with
    | .message _ (.newVersion notice) =>
      if notice.size = 0 ∧ x.site? notice.path = some σ then ((x.volume.recordAt σ).plan notice).remote? else none
    | .message name (.fileChunk chunk) =>
      match (x.node.session name).transfers.get? chunk.path with
      | some t =>
        if chunk.data ≠ [] ∧ (t.fault? chunk).isNone ∧ (t.note chunk).2.complete ∧
          x.site? chunk.path = some σ then t.pull.remote?
        else none
      | none => none
    | _ => none
  else none

/-- All that can be seen of an event at a site. -/
structure Seen (x : Moment) (σ : Site) (edited : Option LocalEdit) (applied : Option Commit) (sent : List Commit)
    (caughtUp : Option UInt64) : Prop where
  edited : x.edited? σ = edited
  applied : x.applied? σ = applied
  sent : x.sent σ = sent
  caughtUp : x.caughtUp? σ = caughtUp

/-- What an event does to the record `r` at a site, which is `r'` afterwards. -/
inductive Does (x : Moment) (σ : Site) (r r' : Record) : Prop
  | rests (seen : x.Seen σ none none [] none) (same : r' = r)
  | edits {e : LocalEdit} (seen : x.Seen σ (some e) none [] none)
    (edited : r' = e.apply (x.volume.record? σ).isNone r)
  | commits {c : Commit} (seen : x.Seen σ none (some c) [] none) (committed : r.commit c = .ok r')
  | hears {notice : NewVersion} (seen : x.Seen σ none none [] none) (heard : r' = r.announced notice)
  | adopts {client : UInt64} (seen : x.Seen σ none none [⟨r.base, r.base + 1, client⟩] none) (idle : r.Idle)
    (adopted : r' = r.adoptEdits)
  | catchesUp {remote : UInt64} (seen : x.Seen σ none none [] (some remote)) (ahead : r.base < remote)
    (calm : r.state = .synced ∨ r.state = .stale) (taken : r' = r.catchUp remote)

/-! ### Edits -/

section Does
variable {x : Moment} {σ : Site} {name path : String} {m : Message} {e : LocalEdit}

theorem site?_eq_some {path : String} : x.site? path = some σ ↔ x.store.Leads x.after path σ := Store.site?_eq_some

theorem does_of_edit (he : x.event = .edit e path) : x.Does σ (x.volume.recordAt σ) (x.after.recordAt σ) := by
  have hafter : x.after = (e.report x.store path x.volume).2 := by
    unfold after
    rw [he]
    rfl
  have silent : x.answer? = none := by simp [answer?, he]
  have seen : x.Seen σ
      (if (e.report x.store path x.volume).1.isOk ∧ x.site? path = some σ then some e else none) none [] none :=
    ⟨by simp [edited?, he], by simp [applied?, he], by simp [sent, silent], by simp [caughtUp?, silent]⟩
  rcases e.report_cases x.store path x.volume with ⟨err, w, ha, hw⟩ | ⟨τ, fresh, r, w, file, -, hl, hw⟩
  · rw [hw] at hafter seen
    refine .rests (by simpa [Except.isOk, Except.toBool] using seen) ?_
    rw [hafter, acquire_error_recordAt ha]
  rw [hw] at hafter seen
  obtain ⟨hbefore, hfresh⟩ := hl.begins
  have hsite : x.site? path = some τ := site?_eq_some.mpr (hafter ▸ hl.leads)
  by_cases hσ : σ = τ
  · subst hσ
    refine .edits (e := e) (by simpa [Except.isOk, Except.toBool, hsite] using seen) ?_
    rw [hafter, recordAt_of_record? hl.after, hbefore, hfresh]
  · have hne : ¬τ = σ := fun h => hσ h.symm
    refine .rests (by simpa [hsite, hne] using seen) ?_
    rw [hafter]
    exact Leased.elsewhere (hl.mono fun _ => False.elim) hσ

/-! ### Messages -/

def Refused (x : Moment) : Prop := ∀ answer, x.answer? = some answer → ∃ nack, answer = .reply (.nack nack)

/-- A message was handled with this outcome: it is the answer, or a failure that is told to the peer unless it
    ends the connection. -/
structure Handled (x : Moment) {α : Type} (outcome : Except Fault α) (tell : α → Answer) (w : Volume) : Prop where
  after : x.after = w
  told : ∀ a, outcome = .ok a → x.answer? = some (tell a)
  refused : ∀ e, outcome = .error e → x.Refused ∧
    (e.fatal = false → ∃ nack, x.answer? = some (.reply (.nack nack)))

theorem message_cases (he : x.event = .message name m) :
    (x.after = x.volume ∧ x.Refused ∧ ∃ nack, x.answer? = some (.reply (.nack nack))) ∨
      ∀ {α : Type} {outcome : Except Fault α} {tell : α → Answer} {s : Session} {w : Volume},
        (x.node.session name).handle x.node.setup m x.volume = (outcome.map tell, s, w) →
        x.Handled outcome tell w := by
  have hanswer : x.answer? = ((x.node.session name).answer x.node.setup m x.volume).1.toOption := by
    simp only [answer?, he]; rfl
  have hafter : x.after = ((x.node.session name).answer x.node.setup m x.volume).2.2 := by
    simp only [Moment.after, he]; rfl
  rcases (x.node.session name).answer_cases x.node.setup m x.volume with ⟨-, nack, -, h⟩ |
    ⟨-, a, s', w, hh, ⟨answer, rfl, h⟩ | ⟨e, answer, rfl, h, hcase⟩⟩ <;> rw [h] at hanswer hafter
  · refine Or.inl ⟨hafter, fun answer hs => ⟨nack, ?_⟩, nack, hanswer⟩
    rw [hanswer] at hs
    exact (Option.some.inj hs).symm
  · refine Or.inr fun {α outcome tell s w'} ht => ?_
    rw [hh] at ht
    obtain ⟨ha, -, rfl⟩ : _ ∧ _ ∧ w = w' := by simpa using ht
    cases outcome with
    | error e => cases ha
    | ok a =>
      cases ha
      exact ⟨hafter, fun a ha => by cases ha; exact hanswer, fun e he => by cases he⟩
  · refine Or.inr fun {α outcome tell s w'} ht => ?_
    rw [hh] at ht
    obtain ⟨ha, -, rfl⟩ : _ ∧ _ ∧ w = w' := by simpa using ht
    cases outcome with
    | ok a => cases ha
    | error e' =>
      cases ha
      refine ⟨hafter, fun a ha => (by cases ha), fun e he => ?_⟩
      cases he
      rcases hcase with ⟨hf, rfl⟩ | ⟨hf, nack, -, rfl⟩
      · refine ⟨fun answer' hs => ?_, fun hf' => ?_⟩
        · rw [hanswer] at hs
          cases hs
        · rw [hf] at hf'
          cases hf'
      · refine ⟨fun answer' hs => ⟨nack, ?_⟩, fun _ => ⟨nack, hanswer⟩⟩
        rw [hanswer] at hs
        exact (Option.some.inj hs).symm

theorem sent_eq_nil {answer : Answer} (ha : x.answer? = some answer)
    (hm : ∀ path c, .commit path c ∈ answer.replies → x.site? path ≠ some σ) : x.sent σ = [] := by
  unfold sent
  rw [ha]
  refine List.filterMap_eq_nil_iff.mpr fun m hmem => ?_
  cases m with
  | commit path c => simp [hm path c hmem]
  | _ => rfl

theorem seen_of_refused (he : x.event = .message name m) (hr : x.Refused) : x.Seen σ none none [] none := by
  have silent : x.answer? ≠ some .silent := fun hs => by
    obtain ⟨nack, h⟩ := hr _ hs
    cases h
  refine ⟨by simp [edited?, he], ?_, ?_, by simp [caughtUp?, silent]⟩
  · cases m <;> simp [applied?, he, silent]
  · cases ha : x.answer? with
    | none => simp [sent, ha]
    | some answer =>
      obtain ⟨nack, rfl⟩ := hr _ ha
      exact sent_eq_nil ha fun path c hm => by cases List.mem_singleton.mp hm

/-- A commit is applied to the record, or it leaves the record; if it was for this site it is refused. -/
theorem commit_cases {c : Commit} (he : x.event = .message name (.commit path c)) :
    (x.Seen σ none (some c) [] none ∧ (x.volume.recordAt σ).commit c = .ok (x.after.recordAt σ)) ∨
      (x.Seen σ none none [] none ∧ x.after.recordAt σ = x.volume.recordAt σ ∧
        (x.site? path = some σ → ∃ nack, x.answer? = some (.reply (.nack nack)))) := by
  rcases message_cases he with ⟨hafter, hr, hnack⟩ | handled
  · exact Or.inr ⟨seen_of_refused he hr, by rw [hafter], fun _ => hnack⟩
  have h : x.Handled (x.store.committed path c x.volume).1 (fun _ => .silent)
      (x.store.committed path c x.volume).2 :=
    handled rfl
  rcases x.store.committed_cases path c x.volume with ⟨err, w, ha, hw⟩ |
    ⟨τ, fresh, r, w, ⟨why, -, hl, hw⟩ | ⟨r', hc, hl, hw⟩⟩ <;>
    rw [hw] at h
  · obtain ⟨hr, hnack⟩ := h.refused _ rfl
    refine Or.inr ⟨seen_of_refused he hr, ?_, fun _ => hnack (not_fatal_of_acquire_error ha)⟩
    rw [h.after, acquire_error_recordAt ha]
  · obtain ⟨hr, hnack⟩ := h.refused _ rfl
    refine Or.inr ⟨seen_of_refused he hr, ?_, fun _ => hnack rfl⟩
    rw [h.after]
    by_cases hσ : σ = τ
    · rw [hσ, recordAt_of_record? hl.after, hl.begins.1]
    · exact Leased.elsewhere (hl.mono fun _ => False.elim) hσ
  · have silent : x.answer? = some .silent := h.told _ rfl
    have hsite : x.site? path = some τ := site?_eq_some.mpr (h.after ▸ hl.leads)
    have seen : x.Seen σ none (if τ = σ then some c else none) [] none :=
      ⟨by simp [edited?, he], by simp [applied?, he, silent, hsite], sent_eq_nil silent (by simp [Answer.silent]),
        by simp [caughtUp?, he]⟩
    rw [h.after]
    by_cases hσ : τ = σ
    · subst hσ
      rw [if_pos rfl] at seen
      rw [recordAt_of_record? hl.after, hl.begins.1]
      exact Or.inl ⟨seen, hc⟩
    · rw [if_neg hσ] at seen
      refine Or.inr ⟨seen, Leased.elsewhere (hl.mono fun _ => False.elim) fun h => hσ h.symm, fun h => ?_⟩
      rw [hsite] at h
      exact absurd (Option.some.inj h) hσ

/-- Of a message that is no commit, only commits of the site in its answer are seen, and a later base. -/
theorem seen_of_answer {answer : Answer} (he : x.event = .message name m) (hm : ∀ path c, m ≠ .commit path c)
    (ha : x.answer? = some answer) (hms : ∀ path c, .commit path c ∈ answer.replies → x.site? path ≠ some σ) :
    x.Seen σ none none [] (x.caughtUp? σ) := by
  refine ⟨by simp [edited?, he], ?_, sent_eq_nil ha hms, rfl⟩
  cases m with
  | commit path c => exact absurd rfl (hm path c)
  | _ => simp [applied?, he]

theorem seen_of_commit {c : Commit} (he : x.event = .message name m) (hm : ∀ path c, m ≠ .commit path c)
    (ha : x.answer? = some (.all [.commit path c])) (hsite : x.site? path = some σ) :
    x.Seen σ none none [c] none := by
  refine ⟨by simp [edited?, he], ?_, ?_, ?_⟩
  · cases m with
    | commit path c => exact absurd rfl (hm path c)
    | _ => simp [applied?, he]
  · simp [sent, ha, Answer.all, hsite]
  · simp [caughtUp?, ha, Answer.all, Answer.silent]

theorem seen_of_handled {α : Type} {outcome : Except Fault α} {tell : α → Answer} {w : Volume}
    (he : x.event = .message name m) (hm : ∀ path c, m ≠ .commit path c) (h : x.Handled outcome tell w)
    (hms : ∀ a, outcome = .ok a → ∀ path c, .commit path c ∈ (tell a).replies → x.site? path ≠ some σ)
    (hup : x.caughtUp? σ = none) :
    x.Seen σ none none [] none := by
  cases outcome with
  | error e => exact seen_of_refused he (h.refused e rfl).1
  | ok a =>
    have seen := seen_of_answer he hm (h.told a rfl) (hms a rfl)
    rwa [hup] at seen

/-- What a message puts in place at a site is seen there, and nowhere else. -/
theorem does_of_installed {τ : Site} {r r' : Record} {replies : List Message} (client : UInt64)
    (he : x.event = .message name m) (hm : ∀ path c, m ≠ .commit path c) (ha : x.answer? = some (.all replies))
    (hsite : x.site? path = some τ) (before : x.volume.recordAt τ = r) (after : x.after.recordAt τ = r')
    (taken : (r.Idle ∧ r' = r.adoptEdits ∧ replies = [.commit path ⟨r.base, r.base + 1, client⟩]) ∨
      ∃ remote, x.caughtUp? τ = some remote ∧ r.base < remote ∧ (r.state = .synced ∨ r.state = .stale) ∧
      r' = r.catchUp remote ∧
        replies = [])
    (elsewhere : σ ≠ τ → x.after.recordAt σ = x.volume.recordAt σ ∧ x.caughtUp? σ = none) :
    x.Does σ (x.volume.recordAt σ) (x.after.recordAt σ) := by
  by_cases hσ : σ = τ
  · subst hσ
    rw [before, after]
    rcases taken with ⟨idle, adopted, rfl⟩ | ⟨remote, hup, ahead, calm, caught, rfl⟩
    · exact .adopts (seen_of_commit he hm ha hsite) idle adopted
    · have seen := seen_of_answer (σ := σ) he hm ha (by simp [Answer.all])
      rw [hup] at seen
      exact .catchesUp seen ahead calm caught
  · have other : ∀ path' c, .commit path' c ∈ replies → x.site? path' ≠ some σ := by
      intro path' c hmem hs
      have hpath : path' = path := by
        rcases taken with ⟨-, -, rfl⟩ | ⟨remote, -, -, -, -, rfl⟩
        · cases List.mem_singleton.mp hmem
          rfl
        · cases hmem
      rw [hpath, hsite] at hs
      exact hσ (Option.some.inj hs).symm
    have seen := seen_of_answer he hm ha other
    rw [(elsewhere hσ).2] at seen
    exact .rests seen (elsewhere hσ).1

/-- No later base is seen with a notice, unless it is pulled at once. -/
theorem caughtUp?_of_newVersion {notice : NewVersion} (he : x.event = .message name (.newVersion notice))
    (hup : x.answer? = some .silent → x.site? notice.path = some σ → notice.size = 0 →
      ((x.volume.recordAt σ).plan notice).remote? = none) : x.caughtUp? σ = none := by
  simp only [caughtUp?, he]
  split
  · rename_i silent
    split
    · rename_i hc
      exact hup silent hc.2 hc.1
    · rfl
  · rfl

theorem does_of_newVersion {notice : NewVersion} (ho : x.node.Orderly x.volume)
    (he : x.event = .message name (.newVersion notice)) :
    x.Does σ (x.volume.recordAt σ) (x.after.recordAt σ) := by
  have hm : ∀ path c, Message.newVersion notice ≠ .commit path c := fun _ _ h => by cases h
  rcases message_cases he with ⟨hafter, hr, -⟩ | handled
  · exact .rests (seen_of_refused he hr) (by rw [hafter])
  have h : x.Handled
      (x.store.announced x.node.setup.config.chunkSize notice (x.node.session name).transfers x.volume).1 .all
      (x.store.announced x.node.setup.config.chunkSize notice (x.node.session name).transfers x.volume).2.2 :=
    handled rfl
  have staged := (ho.held name).staged (ho.distinct name)
  rcases x.store.announced_cases x.node.setup.config.chunkSize notice (x.node.session name).transfers x.volume with
    ⟨err, w, ha, hw⟩ | ⟨τ, fresh, r, w, ⟨answer, hw, hnone, hl⟩ | ⟨p, t, hplan, hsize, hw, hl, began, -⟩ |
      ⟨p, t, r', replies, file, content, hplan, hz, hw, hpath, hpull, hclient, hset, hl, -⟩⟩ <;> rw [hw] at h
  · exact .rests (seen_of_refused he (h.refused _ rfl).1) (by rw [h.after, acquire_error_recordAt ha])
  · have hsite : x.site? notice.path = some τ := site?_eq_some.mpr (h.after ▸ hl.leads)
    have hseen : x.Seen σ none none [] none := by
      rcases hnone with ⟨rfl, hplan⟩ | ⟨e, rfl, -⟩
      · refine seen_of_handled he hm h (fun ms hms => by cases hms; simp [Answer.all])
          (caughtUp?_of_newVersion he fun _ hs _ => ?_)
        rw [hsite] at hs
        cases hs
        rw [hl.begins.1]
        cases hp : r.plan notice with
        | pull p => exact absurd hp (hplan p)
        | _ => rfl
      · exact seen_of_refused he (h.refused e rfl).1
    rw [h.after]
    by_cases hσ : σ = τ
    · subst hσ
      exact .hears hseen (by rw [recordAt_of_record? hl.after, hl.begins.1])
    · exact .rests hseen (Leased.elsewhere (hl.mono fun _ hu => Or.inl hu.1) hσ)
  · have hseen : x.Seen σ none none [] none := by
      refine seen_of_handled he hm h (fun ms hms path c hmem => ?_)
        (caughtUp?_of_newVersion he fun _ _ hz => absurd hz hsize)
      cases hms
      obtain ⟨request, -, hr⟩ := List.mem_map.mp hmem
      cases hr
    have hk := (staged.add (began.requests x.node.setup.config.chunkSize).unused.1 w).2
    rw [h.after]
    dsimp only
    rw [hk.recordAt_staging]
    by_cases hσ : σ = τ
    · subst hσ
      exact .hears hseen (by rw [recordAt_of_record? hl.after, hl.begins.1])
    · exact .rests hseen (Leased.elsewhere (hl.mono fun _ hu => Or.inl hu.1) hσ)
  · have hsite : x.site? notice.path = some τ := site?_eq_some.mpr (h.after ▸ hl.leads)
    have ha : x.answer? = some (.all replies) := h.told _ rfl
    have before : x.volume.recordAt τ = r := hl.begins.1
    refine does_of_installed t.client he hm ha hsite before (by rw [h.after, recordAt_of_record? hl.after]) ?_
      fun hσ => ⟨?_, caughtUp?_of_newVersion he fun _ hs _ => ?_⟩
    · rcases announced_of_pull hplan with ⟨rfl, hsame⟩ | ⟨rfl, hsame, hidle, hlt⟩ <;> rw [hsame] at hset
      · rcases settle_cases hset with ⟨-, idle, adopted, sent⟩ | ⟨remote, hp, -⟩
        · exact Or.inl ⟨idle, adopted, by rw [sent, hpath]⟩
        · rw [hpull] at hp
          cases hp
      · rcases settle_cases hset with ⟨hp, -⟩ | ⟨remote, hp, -, -, taken, rfl⟩ <;> rw [hpull] at hp
        · cases hp
        obtain rfl := Pull.catchUp.inj hp
        have silent : x.answer? = some .silent := ha
        refine Or.inr ⟨notice.base, ?_, hlt, hidle.2, taken, rfl⟩
        simp [caughtUp?, he, silent, hz, hsite, before, hplan, Plan.remote?, Pull.remote?]
    · rw [h.after]
      exact Leased.elsewhere (hl.mono fun _ hu => hu.imp (·.1) id) hσ
    · rw [hsite] at hs
      exact absurd (Option.some.inj hs).symm hσ

theorem does_of_fileChunk {chunk : FileChunk} (ho : x.node.Orderly x.volume)
    (he : x.event = .message name (.fileChunk chunk)) :
    x.Does σ (x.volume.recordAt σ) (x.after.recordAt σ) := by
  have hm : ∀ path c, Message.fileChunk chunk ≠ .commit path c := fun _ _ h => by cases h
  rcases message_cases he with ⟨hafter, hr, -⟩ | handled
  · exact .rests (seen_of_refused he hr) (by rw [hafter])
  have h : x.Handled (x.store.receiveChunk chunk (x.node.session name).transfers x.volume).1 .all
      (x.store.receiveChunk chunk (x.node.session name).transfers x.volume).2.2 :=
    handled rfl
  have hts := ho.held name
  have staged := hts.staged (ho.distinct name)
  rcases x.store.receiveChunk_cases chunk (x.node.session name).transfers x.volume with ⟨-, hw⟩ |
    ⟨t, ht, ⟨hbad, answer, hw, hnone⟩ |
    ⟨hf, hne, ⟨hc, hw⟩ | ⟨hc, answer, w, hi, hw⟩⟩⟩ <;> rw [hw] at h
  · exact .rests (seen_of_refused he (h.refused _ rfl).1) (by rw [h.after])
  · refine .rests (seen_of_handled he hm h (fun ms hms => by rw [hnone ms hms]; simp [Answer.all]) ?_) ?_
    · rcases hbad with hd | hf
      · simp [caughtUp?, he, ht, hd]
      · simp [caughtUp?, he, ht, hf]
    · rw [h.after, (staged.drop chunk.path x.volume).2.recordAt_staging]
  · refine .rests (seen_of_handled he hm h (fun ms hms path c hmem => ?_) (by simp [caughtUp?, he, ht, hc])) ?_
    · cases hms
      obtain ⟨request, -, hr⟩ := List.mem_map.mp hmem
      cases hr
    · rw [h.after, (modify_staging x.volume (staged.of_get? ht) _).recordAt_staging]
  -- The transfer of the path is complete.
  have hpath : (t.note chunk).2.path = chunk.path := (t.path_note chunk).trans (hts _ _ ht).1
  have hplace : StagingPlace (t.note chunk).2.staging.location := t.staging_note chunk ▸ (hts _ _ ht).2.1
  have hfed : Kept StagingPlace x.volume (x.volume.modify t.staging (·.write chunk.offset.toNat chunk.data)) :=
    modify_staging x.volume (staged.of_get? ht) _
  rcases x.store.install_cases (t.note chunk).2 _ hplace with ⟨e, w', ha, hw'⟩ |
    ⟨τ, fresh, r, w', ⟨e, hw', hl, -⟩ |
    ⟨r', replies, file, content, hw', hset, hl, -⟩⟩ <;> rw [hi] at hw' <;> cases hw'
  · refine .rests (seen_of_refused he (h.refused _ rfl).1) ?_
    rw [h.after]
    exact ((discard_staging w' hplace).recordAt_staging σ).trans
      ((acquire_error_recordAt ha σ).trans (hfed.recordAt_staging σ))
  · refine .rests (seen_of_refused he (h.refused _ rfl).1) ?_
    rw [h.after, ← hfed.recordAt_staging]
    by_cases hσ : σ = τ
    · rw [hσ, recordAt_of_record? hl.after, hl.begins.1]
    · exact Leased.elsewhere (hl.mono fun _ he => Or.inl (he ▸ hplace)) hσ
  · rw [hpath] at hl
    have hsite : x.site? chunk.path = some τ := site?_eq_some.mpr (h.after ▸ hl.leads)
    have ha : x.answer? = some (.all replies) := h.told _ rfl
    refine does_of_installed t.client he hm ha hsite ((hfed.recordAt_staging τ).symm.trans hl.begins.1)
      (by rw [h.after, recordAt_of_record? hl.after]) ?_ fun hσ => ⟨?_, ?_⟩
    · rcases settle_cases hset with ⟨-, idle, adopted, sent⟩ | ⟨remote, hp, stale, ahead, taken, rfl⟩
      · exact Or.inl ⟨idle, adopted, by rw [sent, hpath, t.client_note]⟩
      · rw [t.pull_note] at hp
        have silent : x.answer? = some .silent := ha
        refine Or.inr ⟨remote, ?_, ahead, Or.inr stale, taken, rfl⟩
        simp [caughtUp?, he, ht, silent, hne, hf, hc, hsite, hp, Pull.remote?]
    · rw [h.after, ← hfed.recordAt_staging]
      exact Leased.elsewhere (hl.mono fun l hu => hu.imp (fun (he : l = _) => he ▸ hplace) id) hσ
    · have other : τ ≠ σ := fun h => hσ h.symm
      by_cases hs : x.answer? = some .silent
      · simp [caughtUp?, he, ht, hs, hne, hf, hc, hsite, other]
      · simp [caughtUp?, hs]

theorem map_eq_ok {α : Type} {outcome : Except Fault α} {tell : α → Answer} {answer : Answer}
    (h : outcome.map tell = .ok answer) :
    ∃ a, outcome = .ok a ∧ tell a = answer := by
  cases outcome with
  | error e => cases h
  | ok a => exact ⟨a, rfl, Except.ok.inj h⟩

theorem silent_of_subscribe {u : Setup} {s : Session} {answer : Answer}
    (h : (Session.subscribe u path s).1 = .ok answer) :
    answer = .silent := by
  unfold Session.subscribe at h
  dsimp only at h
  split at h
  · exact (Except.ok.inj h).symm
  · split at h
    · cases h
    · exact (Except.ok.inj h).symm

theorem does_of_other (ho : x.node.Orderly x.volume) (he : x.event = .message name m)
    (hn : ∀ notice, m ≠ .newVersion notice) (hf : ∀ chunk, m ≠ .fileChunk chunk)
    (hc : ∀ path c, m ≠ .commit path c) :
    x.Does σ (x.volume.recordAt σ) (x.after.recordAt σ) := by
  rcases message_cases he with ⟨hafter, hr, -⟩ | handled
  · exact .rests (seen_of_refused he hr) (by rw [hafter])
  obtain ⟨a, s', w, hh⟩ : ∃ a s' w, (x.node.session name).handle x.node.setup m x.volume = (a, s', w) :=
    ⟨_, _, _, rfl⟩
  have h : x.Handled a id w := handled (by rw [hh]; cases a <;> rfl)
  have hup : x.caughtUp? σ = none := by
    cases m with
    | newVersion notice => exact absurd rfl (hn notice)
    | fileChunk chunk => exact absurd rfl (hf chunk)
    | _ => simp [caughtUp?, he]
  have rest : w.recordAt σ = x.volume.recordAt σ ∧ ∀ answer, a = .ok answer →
      ∀ path c, .commit path c ∉ answer.replies := by
    cases m with
    | newVersion notice => exact absurd rfl (hn notice)
    | fileChunk chunk => exact absurd rfl (hf chunk)
    | commit path c => exact absurd rfl (hc path c)
    | nack nack =>
      cases hh
      refine ⟨?_, fun _ h _ _ hm => by cases h; cases hm⟩
      exact (((ho.held name).staged (ho.distinct name)).drop nack.path x.volume).2.recordAt_staging σ
    | requestChunk request =>
      cases hh
      obtain ⟨hkept, hchunk⟩ := serveChunk_recordAt x.store x.node.setup.config.chunkSize request x.volume σ
      refine ⟨hkept, fun answer h path c hm => ?_⟩
      obtain ⟨reply, hr, rfl⟩ := map_eq_ok h
      obtain ⟨chunk, rfl⟩ := hchunk reply hr
      cases List.mem_singleton.mp hm
    | subscribe path =>
      obtain ⟨rfl, rfl⟩ : (Session.subscribe x.node.setup path (x.node.session name)).1 = a ∧ x.volume = w :=
        ⟨congrArg (·.1) hh, congrArg (·.2.2) hh⟩
      refine ⟨rfl, fun answer h path c hm => ?_⟩
      rw [silent_of_subscribe h] at hm
      cases hm
    | hello version =>
      cases hh
      refine ⟨rfl, fun answer h path c hm => ?_⟩
      cases h
      unfold Session.hello at hm
      split at hm <;> cases List.mem_singleton.mp hm
    | _ =>
      cases hh
      refine ⟨rfl, fun answer h path c hm => ?_⟩
      cases h
      simp [Answer.reply, Answer.silent] at hm
  rw [h.after]
  exact .rests (seen_of_handled he hc h (fun answer ha path c hm => absurd hm (rest.2 answer ha path c)) hup) rest.1

/-- Every event does one of these things to the record at a site. -/
theorem does (ho : x.node.Orderly x.volume) (σ : Site) : x.Does σ (x.volume.recordAt σ) (x.after.recordAt σ) := by
  cases he : x.event with
  | edit e path => exact does_of_edit he
  | close name =>
    have staged := (ho.held name).staged (ho.distinct name)
    have silent : x.answer? = none := by simp [answer?, he]
    refine .rests ⟨by simp [edited?, he], by simp [applied?, he], by simp [sent, silent],
      by simp [caughtUp?, silent]⟩ ?_
    have hafter : x.after = (x.node.close name x.volume).2 := by simp only [Moment.after, he]; rfl
    rw [hafter]
    exact (staged.abandonAll x.volume).recordAt_staging σ
  | message name m =>
    cases m with
    | newVersion notice => exact does_of_newVersion ho he
    | fileChunk chunk => exact does_of_fileChunk ho he
    | commit path c =>
      rcases commit_cases he with ⟨seen, hc⟩ | ⟨seen, hsame, -⟩
      · exact .commits seen hc
      · exact .rests seen hsame
    | _ => exact does_of_other ho he (by simp) (by simp) (by simp)

end Does
end Moment

end TreeReplica
