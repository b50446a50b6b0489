import Mathlib.Data.List.Basic
import Mathlib.Data.List.Induction
import TreeReplica.Proofs.History
import TreeReplica.Proofs.Sample

/-! What a node that requires authentication lets a peer do. The kinds that need it are open as long as the
    last proof that was presented in the session is accepted (`Passes.authenticated_iff`). Before the first
    such proof the node answers out of the message and its setup alone (`Setup.toStranger`), whatever it
    serves. -/

namespace TreeReplica
open Volume

/-! ### Proofs -/

/-- A proof shows who the peer is: it decrypts to the peer's name, and the name is allowed. -/
def Setup.Admits (u : Setup) (peer : String) (proof : Bytes) : Prop :=
  u.crypto.decrypt proof = .ok (Bytes.ofText peer) ∧ u.config.allows peer = true

namespace Session

section Answers
variable {u : Setup} {s : Session} {m : Message} {v : Volume} {peer : String} {proof : Bytes}

theorem accepts_iff : accepts u peer proof = true ↔ u.Admits peer proof := by
  unfold accepts Setup.Admits
  cases u.crypto.decrypt proof <;> simp

/-- The refusal of a message that has to wait until the peer has authenticated. -/
def waitNack (m : Message) : Answer :=
  .reply (.nack (.fitted .unauthenticated (m.path?.getD "") "authenticate first"))

theorem answer_of_gated (h : gated u m s = true) : s.answer u m v = (.ok (waitNack m), s, v) := by
  unfold answer
  simp only [h, ↓reduceIte]
  rfl

theorem gated_eq_true (required : u.config.requireAuth = true) (h : s.authenticated = false)
    (hm : m.kind.needsAuth = true) :
    gated u m s = true := by
  simp [gated, required, h, hm]

theorem forward_eq_silent (required : u.config.requireAuth = true) (h : s.authenticated = false)
    (notice : NewVersion) :
    s.forward u notice = .silent := by
  simp [forward, required, h]

/-- A session is authenticated by a proof that is accepted, and by nothing else; a proof that is not accepted
    undoes it. -/
theorem authenticated_answer (u : Setup) (m : Message) (s : Session) (v : Volume) :
    (s.answer u m v).2.1.authenticated =
      match m with
      | .auth peer proof => accepts u peer proof
      | _ => s.authenticated := by
  rcases s.answer_cases u m v with ⟨hg, nack, -, h⟩ | ⟨-, a, s', w, hh, h⟩
  · rw [h]
    cases m <;> first | rfl | simp [gated, Message.kind, Kind.needsAuth] at hg
  have hs : (s.answer u m v).2.1 = (s.handle u m v).2.1 := by
    rw [hh]
    rcases h with ⟨answer, -, h⟩ | ⟨e, answer, -, h, -⟩ <;> rw [h]
  rw [hs]
  cases m with
  | subscribe path =>
    show (subscribe u path s).2.authenticated = s.authenticated
    unfold subscribe
    dsimp only
    split
    · rfl
    · split <;> rfl
  | _ => rfl

end Answers

/-! ### Strangers -/

/-- A session in which nothing was accepted yet: it holds nothing of what the node serves. -/
structure Stranger (s : Session) : Prop where
  authenticated : s.authenticated = false
  transfers : s.transfers = .empty

end Session

/-- What a node that requires authentication answers as long as it has accepted nothing. -/
def Setup.toStranger (u : Setup) (m : Message) : Answer :=
  match m with
  | .quit => ⟨[], true⟩
  | .hello version => Session.hello version
  | .ping nonce => .reply (.pong nonce)
  | .keyExchange _ => .reply (.keyExchangeReply u.crypto.publicKey)
  | .auth _ _ => .reply (.authResult false)
  | .nack _ | .pong _ | .keyExchangeReply _ | .authResult _ => .silent
  | .subscribe _ | .unsubscribe _ | .newVersion _ | .requestChunk _ | .fileChunk _ | .commit _ _ =>
    Session.waitNack m

namespace Session.Stranger
variable {u : Setup} {s : Session}

theorem start : Stranger .new := ⟨rfl, rfl⟩

/-- A stranger's message changes nothing that is served, and the answer tells nothing of it. -/
theorem answer (h : s.Stranger) (required : u.config.requireAuth = true) {m : Message}
    (hm : ∀ peer proof, m = .auth peer proof → ¬u.Admits peer proof) (v : Volume) :
    ∃ s' : Session, s'.Stranger ∧ s.answer u m v = (.ok (u.toStranger m), s', v) := by
  cases hk : m.kind.needsAuth with
  | true =>
    refine ⟨s, h, (answer_of_gated (gated_eq_true required h.authenticated hk)).trans ?_⟩
    cases m <;> first | rfl | cases hk
  | false =>
    have hg : gated u m s = false := by simp [gated, hk]
    have handled : ∀ {a : Answer} {s' : Session}, s.handle u m v = (.ok a, s', v) →
        s.answer u m v = (.ok a, s', v) := fun hh => by
      unfold Session.answer
      simp only [hg, hh, Bool.false_eq_true, ↓reduceIte]
    cases m with
    | auth peer proof =>
      have hf : accepts u peer proof = false := by
        cases ha : accepts u peer proof with
        | true => exact absurd (accepts_iff.mp ha) (hm peer proof rfl)
        | false => rfl
      refine ⟨s.authenticate false peer, ⟨rfl, h.transfers⟩, handled ?_⟩
      show (Except.ok (Answer.reply (.authResult (accepts u peer proof))),
        s.authenticate (accepts u peer proof) peer, v) = _
      rw [hf]
      rfl
    | nack nack =>
      refine ⟨s, h, handled ?_⟩
      have hnone : s.transfers.drop nack.path v = (s.transfers, v) := by rw [h.transfers]; rfl
      show (Except.ok Answer.silent, { s with transfers := (s.transfers.drop nack.path v).1 },
        (s.transfers.drop nack.path v).2) = _
      rw [hnone]
      rfl
    | keyExchange key => exact ⟨{ s with peerKey := some key }, ⟨h.authenticated, h.transfers⟩, handled rfl⟩
    | quit | hello version | ping nonce | pong nonce | keyExchangeReply key | authResult accepted =>
      exact ⟨s, h, handled rfl⟩
    | subscribe | unsubscribe | newVersion | requestChunk | fileChunk | commit => cases hk

theorem close (h : s.Stranger) (v : Volume) : s.close v = v := by
  unfold Session.close
  rw [h.transfers]
  rfl

end Session.Stranger

/-! ### Sessions in runs -/

namespace Moment

/-- What the peer of a session said. -/
def said? (x : Moment) (name : String) : Option Message :=
  match x.event with
  | .message name' m => if name' = name then some m else none
  | _ => none

/-- What the peer of a session was told, or why its connection ended. -/
def told? (x : Moment) (name : String) : Option (Except Fault Answer) :=
  (x.said? name).map fun m => (x.node.answer name m x.volume).1

/-- The last proof of a session after an event, with the name that it came with. -/
def presents (name : String) (last : Option (String × Bytes)) (x : Moment) : Option (String × Bytes) :=
  match x.event with
  | .message name' (.auth peer proof) => if name' = name then some (peer, proof) else last
  | .close name' => if name' = name then none else last
  | _ => last

/-- The last proof that was presented in a session since it began. -/
def presented? (name : String) (h : List Moment) : Option (String × Bytes) := h.foldl (presents name) none

variable {name : String} {h : List Moment} {peer : String} {proof : Bytes}

theorem presented?_concat (name : String) (h : List Moment) (x : Moment) :
    presented? name (h ++ [x]) = presents name (presented? name h) x := by
  rw [presented?, List.foldl_append]
  rfl

/-- A stranger that presents nothing that is accepted stays a stranger, and changes nothing. -/
theorem of_stranger {x : Moment} (stranger : (x.node.session name).Stranger)
    (required : x.node.setup.config.requireAuth = true)
    (unproved : ∀ peer proof, x.said? name = some (.auth peer proof) → ¬x.node.setup.Admits peer proof) :
    ((x.node.step x.event x.volume).1.session name).Stranger ∧
      (x.event = .close name ∨ (x.said? name).isSome → x.after = x.volume) ∧
      x.told? name = (x.said? name).map fun m => .ok (x.node.setup.toStranger m) := by
  obtain ⟨n, e, v⟩ := x
  cases e with
  | edit e path => exact ⟨stranger, by simp [said?], by simp [told?, said?]⟩
  | close name' =>
    refine ⟨?_, fun hc => ?_, by simp [told?, said?]⟩
    · show ((n.close name' v).1.session name).Stranger
      rw [Node.session_close]
      split
      · exact .start
      · exact stranger
    · obtain rfl : name' = name := by simpa [said?] using hc
      exact stranger.close v
  | message name' m =>
    by_cases hname : name' = name
    · subst hname
      have hsaid : (⟨n, .message name' m, v⟩ : Moment).said? name' = some m := by simp [said?]
      obtain ⟨s, hs, hanswer⟩ := stranger.answer required (fun peer proof he => unproved peer proof (he ▸ hsaid)) v
      refine ⟨?_, fun _ => ?_, ?_⟩
      · show ((n.setSession name' ((n.session name').answer n.setup m v).2.1).session name').Stranger
        rw [Node.session_setSession, if_pos rfl, hanswer]
        exact hs
      · show ((n.session name').answer n.setup m v).2.2 = v
        rw [hanswer]
      · rw [told?, hsaid]
        show some ((n.session name').answer n.setup m v).1 = some _
        rw [hanswer]
    · have hsaid : (⟨n, .message name' m, v⟩ : Moment).said? name = none := by simp [said?, hname]
      refine ⟨?_, by simp [hsaid], by rw [told?, hsaid]; rfl⟩
      show ((n.setSession name' _).session name).Stranger
      rw [Node.session_setSession, if_neg hname]
      exact stranger

end Moment

namespace Passes
open Moment
variable {n n₀ : Node} {v v₀ : Volume} {h : List Moment} {name : String}

/-- A session is authenticated as long as the last proof that was presented in it is accepted. -/
theorem authenticated_iff (run : Passes n₀ v₀ h n v) (new : n₀.session name = .new) :
    (n.session name).authenticated = true ↔ ∃ peer proof, presented? name h = some (peer, proof) ∧
    n₀.setup.Admits peer proof := by
  induction run with
  | rest =>
    rw [new]
    simp [presented?, Session.new]
  | @event h m w e run ih =>
    have hu := run.setup.1
    rw [presented?_concat]
    cases e with
    | edit e path => exact ih
    | close name' =>
      show ((m.close name' w).1.session name).authenticated = true ↔ _
      rw [Node.session_close]
      dsimp only [presents]
      split
      · simp [Session.new]
      · exact ih
    | message name' msg =>
      show ((m.setSession name' ((m.session name').answer m.setup msg w).2.1).session name).authenticated = true ↔ _
      rw [Node.session_setSession]
      split
      · rename_i hname
        subst hname
        rw [Session.authenticated_answer, hu]
        cases msg with
        | auth peer proof =>
          rw [Session.accepts_iff]
          simp only [presents, ↓reduceIte, Option.some.injEq, Prod.mk.injEq]
          exact ⟨fun ha => ⟨peer, proof, ⟨rfl, rfl⟩, ha⟩,
            fun ⟨_, _, ⟨hpeer, hproof⟩, ha⟩ => hpeer ▸ hproof ▸ ha⟩
        | _ => exact ih
      · rename_i hname
        have hlast : presents name (presented? name h) ⟨m, .message name' msg, w⟩ = presented? name h := by
          cases msg <;> simp [presents, hname]
        rw [hlast]
        exact ih
  | use _ _ ih => exact ih

/-- As long as a session presents nothing that is accepted it stays a stranger's: it changes nothing, and it
    is told nothing but what a stranger is. -/
theorem stranger (run : Passes n₀ v₀ h n v) (required : n₀.setup.config.requireAuth = true)
    (new : n₀.session name = .new)
    (unproved : ∀ x ∈ h, ∀ peer proof, x.said? name = some (.auth peer proof) → ¬n₀.setup.Admits peer proof) :
    (n.session name).Stranger ∧ (∀ x ∈ h, x.event = .close name ∨ (x.said? name).isSome → x.after = x.volume) ∧
      ∀ x ∈ h, x.told? name = (x.said? name).map fun m => .ok (n₀.setup.toStranger m) := by
  induction run with
  | rest => exact ⟨new ▸ .start, fun _ hx => (by cases hx), fun _ hx => by cases hx⟩
  | @event h m w e run ih =>
    obtain ⟨stranger, same, told⟩ := ih fun x hx => unproved x (List.mem_append_left _ hx)
    have hu := run.setup.1
    obtain ⟨still, same', told'⟩ := Moment.of_stranger (x := ⟨m, e, w⟩) stranger (hu ▸ required)
      (hu ▸ unproved _ (List.mem_append_right _ List.mem_cons_self))
    refine ⟨still, fun x hx => ?_, fun x hx => ?_⟩ <;> rcases List.mem_append.mp hx with hx | hx
    · exact same x hx
    · rw [List.mem_singleton.mp hx]
      exact same'
    · exact told x hx
    · rw [List.mem_singleton.mp hx, told', hu]
  | use _ _ ih => exact ih unproved

/-- A node requires authentication, and a session begins. As long as its peer has presented no proof that is
    accepted, all that it says leaves the volume as it is, no notice is sent to it, and whatever another node
    with this setup serves and does besides, it answers the same messages with the same replies. At any time,
    the messages that need authentication are refused and change nothing, and no notice is sent, unless the
    last proof that was presented is accepted. -/
theorem strangers_learn_nothing (name : String) (required : n₀.setup.config.requireAuth = true)
    (new : n₀.session name = .new) (run : Passes n₀ v₀ h n v) :
    ((∀ x ∈ h, ∀ peer proof, x.said? name = some (.auth peer proof) → ¬n₀.setup.Admits peer proof) →
      (∀ x ∈ h, x.event = .close name ∨ (x.said? name).isSome → x.after = x.volume) ∧
      (∀ notice, (n.session name).forward n.setup notice = .silent) ∧
      ∀ {n₀' n' : Node} {v₀' v' : Volume} {h' : List Moment}, n₀'.setup = n₀.setup →
      n₀'.session name = .new →
        Passes n₀' v₀' h' n' v' → h'.filterMap (·.said? name) = h.filterMap (·.said? name) →
        h'.filterMap (·.told? name) = h.filterMap (·.told? name)) ∧
    ((∀ peer proof, presented? name h = some (peer, proof) → ¬n₀.setup.Admits peer proof) →
      (∀ m : Message, m.kind ∈ [.subscribe, .unsubscribe, .newVersion, .requestChunk, .fileChunk, .commit] →
        (n.session name).answer n.setup m v =
          (.ok (.reply (.nack (.fitted .unauthenticated (m.path?.getD "") "authenticate first"))),
            n.session name, v)) ∧
      ∀ notice, (n.session name).forward n.setup notice = .silent) := by
  have hrequired : n.setup.config.requireAuth = true := run.setup.1 ▸ required
  -- What strangers were told is what they said, answered one by one.
  have answered : ∀ {n₀' n' : Node} {v₀' v' : Volume} {h' : List Moment}, n₀'.setup = n₀.setup →
    n₀'.session name = .new →
      Passes n₀' v₀' h' n' v' →
      (∀ x ∈ h', ∀ peer proof, x.said? name = some (.auth peer proof) → ¬n₀.setup.Admits peer proof) →
      h'.filterMap (·.told? name) = (h'.filterMap (·.said? name)).map fun m => .ok (n₀.setup.toStranger m) := by
    intro n₀' n' v₀' v' h' hu hnew hrun hun
    obtain ⟨-, -, told⟩ := hrun.stranger (hu ▸ required) hnew (hu ▸ hun)
    rw [hu] at told
    rw [List.map_filterMap]
    exact List.filterMap_congr told
  refine ⟨fun unproved => ?_, fun hlast => ?_⟩
  · obtain ⟨stranger, same, -⟩ := run.stranger required new unproved
    refine ⟨same, Session.forward_eq_silent hrequired stranger.authenticated,
      fun {_ _ _ _ h'} hu hnew hrun hsaid => ?_⟩
    have unproved' : ∀ x ∈ h', ∀ peer proof, x.said? name = some (.auth peer proof) →
        ¬n₀.setup.Admits peer proof := by
      intro x hx peer proof hs
      have hmem : Message.auth peer proof ∈ h'.filterMap (·.said? name) := List.mem_filterMap.mpr ⟨x, hx, hs⟩
      rw [hsaid] at hmem
      obtain ⟨y, hy, hs'⟩ := List.mem_filterMap.mp hmem
      exact unproved y hy peer proof hs'
    calc h'.filterMap (·.told? name)
        = (h'.filterMap (·.said? name)).map fun m => .ok (n₀.setup.toStranger m) := answered hu hnew hrun unproved'
      _ = (h.filterMap (·.said? name)).map fun m => .ok (n₀.setup.toStranger m) := by rw [hsaid]
      _ = h.filterMap (·.told? name) := (answered rfl new run unproved).symm
  · have unauthenticated : (n.session name).authenticated = false := by
      rw [Bool.eq_false_iff]
      intro ha
      obtain ⟨peer, proof, hp, hadmits⟩ := (run.authenticated_iff new).mp ha
      exact hlast peer proof hp hadmits
    refine ⟨fun m hm => Session.answer_of_gated (Session.gated_eq_true hrequired unauthenticated ?_),
      Session.forward_eq_silent hrequired unauthenticated⟩
    cases m <;> first | rfl | simp [Message.kind] at hm

/-! ### The sample -/

/-- The sample's setup, with authentication required. -/
def guardedSetup : Setup := ⟨{ sampleSetup.config with requireAuth := true }, .plaintext []⟩

/-- A peer that has no proof tries what it can. -/
def samplePrying : List Node.Event :=
  [.message "one" (.requestChunk ⟨"a", 0, 0, 2⟩), .message "one" (.auth "eve" [0]),
    .message "one" (.newVersion ⟨"a", 0, 1, 2⟩), .message "one" (.keyExchange [1]),
    .message "one" (.nack ⟨.busy, "a", ""⟩), .message "one" (.commit "a" ⟨0, 1, 1⟩)]

def samplePryingHistory : List Moment := Node.moments samplePrying ⟨guardedSetup, .empty⟩ (sampleVolume [1, 2])

/-- A peer that was let in subscribes and starts a transfer; then it presents a proof that is not accepted. -/
def sampleLapse : List Node.Event :=
  [.edit .created "a", .message "one" (.auth "eve" (Bytes.ofText "eve")), .message "one" (.subscribe ""),
    .message "one" (.newVersion ⟨"a", 0, 1, 2⟩), .message "one" (.auth "eve" [0])]

def sampleLapsed : Node := (Node.run sampleLapse ⟨guardedSetup, .empty⟩ (sampleVolume [1, 2])).1

theorem sample_strangers_learn_nothing :
    samplePryingHistory.filterMap (·.told? "one") =
      (Node.moments (.edit .created "a" :: samplePrying) ⟨guardedSetup, .empty⟩ (sampleVolume [])).filterMap
        (·.told? "one") ∧
    (∀ x ∈ samplePryingHistory, x.event = .close "one" ∨ (x.said? "one").isSome → x.after = x.volume) ∧
    ((sampleLapsed.session "one").subscriptions = [""] ∧ (sampleLapsed.session "one").transfers.keys = ["a"]) ∧
    ∀ notice, (sampleLapsed.session "one").forward guardedSetup notice = .silent := by
  have refused : ¬guardedSetup.Admits "eve" [0] := fun h => absurd (Session.accepts_iff.mpr h) (by decide)
  have said : samplePryingHistory.filterMap (·.said? "one") =
      [.requestChunk ⟨"a", 0, 0, 2⟩, .auth "eve" [0], .newVersion ⟨"a", 0, 1, 2⟩, .keyExchange [1],
        .nack ⟨.busy, "a", ""⟩, .commit "a" ⟨0, 1, 1⟩] := by
    decide +kernel
  have prying : ∀ x ∈ samplePryingHistory, ∀ peer proof, x.said? "one" = some (.auth peer proof) →
      ¬guardedSetup.Admits peer proof := by
    intro x hx peer proof hs
    have hmem : Message.auth peer proof ∈ samplePryingHistory.filterMap (·.said? "one") :=
      List.mem_filterMap.mpr ⟨x, hx, hs⟩
    rw [said] at hmem
    obtain ⟨rfl, rfl⟩ : peer = "eve" ∧ proof = [0] := by simpa using hmem
    exact refused
  have lapse : ∀ peer proof,
    presented? "one" (Node.moments sampleLapse ⟨guardedSetup, .empty⟩ (sampleVolume [1, 2])) =
      some (peer, proof) → ¬guardedSetup.Admits peer proof := by
    intro peer proof hp
    have hlast : presented? "one" (Node.moments sampleLapse ⟨guardedSetup, .empty⟩ (sampleVolume [1, 2])) =
        some ("eve", [0]) := by
      decide +kernel
    obtain ⟨rfl, rfl⟩ := Prod.mk.inj (Option.some.inj (hlast.symm.trans hp))
    exact refused
  obtain ⟨same, -, told⟩ := (strangers_learn_nothing "one" rfl rfl
    (Node.passes_run samplePrying ⟨guardedSetup, .empty⟩ (sampleVolume [1, 2]))).1 prying
  obtain ⟨-, silent⟩ := (strangers_learn_nothing "one" rfl rfl
    (Node.passes_run sampleLapse ⟨guardedSetup, .empty⟩ (sampleVolume [1, 2]))).2 lapse
  exact ⟨(told rfl rfl (Node.passes_run (.edit .created "a" :: samplePrying)
    ⟨guardedSetup, .empty⟩ (sampleVolume [])) (by decide +kernel)).symm, same, by decide +kernel, silent⟩

end Passes

end TreeReplica
