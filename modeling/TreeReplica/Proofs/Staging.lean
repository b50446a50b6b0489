import Mathlib.Logic.ExistsUnique
import TreeReplica.Proofs.Incidents
import TreeReplica.Proofs.Sample

/-! Staging files never leak. Each transfer of a session has one, which is as long as was announced
    (`Node.Endures.staged`), and each file at the place of a staging file that was not there from the start is
    the one of a transfer (`Node.Neat`). Whatever happens, it happens to the files of the transfers that it is
    about, and those that it ends lose theirs; what ends a transfer is listed (`Node.Endures.staging_files`). -/

namespace TreeReplica
open Volume

/-! ### Lengths -/

namespace Node

/-- A staging file is as long as the announcement of its transfer said. -/
structure Sized (h : List Moment) (name path : String) (t : Transfer) (content : Content) : Prop where
  bounded : t.size.toNat ≤ maxSize
  length : content.toList.length = t.size.toNat
  announced : ∃ x ∈ h, ∃ notice : NewVersion, x.event = .message name (.newVersion notice) ∧ notice.path = path ∧
    notice.client = t.client ∧ notice.size = t.size

section Sized
variable {x : Moment} {h : List Moment} {name path : String} {notice : NewVersion} {p : Pull}
  {chunk : FileChunk} {t : Transfer} {content : Content}

theorem sized_of_begins (b : x.Begins name notice p t) (hread : x.after.read? t.staging = some content)
    (chunkSize : UInt32) :
    Sized (h ++ [x]) name notice.path (t.requests chunkSize).2 content := by
  obtain ⟨outstanding, hreq⟩ := t.requests_snd chunkSize
  obtain ⟨content', hread', hblank⟩ := b.began.blank
  rw [hread] at hread'
  cases hread'
  rw [hreq]
  refine ⟨by rw [b.began.size]; exact b.bounded, by rw [hblank, b.began.size, List.length_replicate], ?_⟩
  exact ⟨x, List.mem_append_right _ List.mem_cons_self, notice, b.event, rfl,
    b.began.client.symm, b.began.size.symm⟩

theorem Sized.later (s : Sized h name path t content) (x : Moment) : Sized (h ++ [x]) name path t content where
  bounded := s.bounded
  length := s.length
  announced := by
    obtain ⟨x', hx, h⟩ := s.announced
    exact ⟨x', List.mem_append_left _ hx, h⟩

theorem Sized.feeds (s : Sized h name path t content) (f : x.Feeds name chunk t) :
    Sized (h ++ [x]) name path (t.note chunk).2 (content.write chunk.offset.toNat chunk.data) := by
  obtain ⟨outstanding, hn⟩ := t.note_snd chunk
  obtain ⟨-, hle⟩ := Transfer.reach_of_fault? f.fault s.bounded
  rw [hn]
  exact ⟨s.bounded, by rw [Content.length_write (s.length ▸ hle), s.length], (s.later x).announced⟩

end Sized

theorem Endures.staged {u : Setup} {m : Node} {v w : Volume} {h : List Moment} (run : Endures ⟨u, .empty⟩ v h m w)
    {name path : String} {t : Transfer} (ht : (m.session name).transfers.get? path = some t) :
    ∃ content, w.read? t.staging = some content ∧ Sized h name path t content :=
  run.transfers (I := Sized) (fun _ s => s.later _) (fun _ b hread => sized_of_begins b hread _)
    (fun f s => s.feeds f) ht

/-! ### Runs -/

/-- At the places of staging files the same files stand as at the start, but where transfers have theirs, and
    there no file stood at the start. -/
structure Neat (v : Volume) (n : Node) (w : Volume) : Prop where
  restaged : Restaged n.StagesAt v w
  fresh : ∀ l, n.StagesAt l → v.Cleared l

section Neat
variable {u : Setup} {n m : Node} {v w w' : Volume} {h : List Moment}

theorem StagesAt.place (ho : n.Orderly v) {l : Location} (hl : n.StagesAt l) : StagingPlace l := by
  obtain ⟨name, path, t, ht, rfl⟩ := hl
  exact (ho.held name path t ht).2.1

/-- Where a transfer had its staging file, and none has one any more, nothing is left. -/
theorem Orderly.left_cleared (ho : n.Orderly w) (i : Incident) {l : Location} (hl : n.StagesAt l)
    (left : ¬(i.meet n w).1.StagesAt l) : (i.meet n w).2.Cleared l := by
  obtain ⟨name, path, t, ht, rfl⟩ := hl
  exact ho.ends ht i fun t' ht' he => left ⟨name, path, t', ht', by rw [he]⟩

theorem Neat.meet (neat : Neat v n w) (ho : n.Orderly w) (i : Incident)
    (ho' : (i.meet n w).1.Orderly (i.meet n w).2) :
    Neat v (i.meet n w).1 (i.meet n w).2 := by
  obtain ⟨restaged, begun⟩ := ho.restages i
  have fresh : ∀ l, (i.meet n w).1.StagesAt l → v.Cleared l := fun l hl => by
    by_cases before : n.StagesAt l
    · exact neat.fresh l before
    · have hc := (begun l hl).resolve_left before
      exact fun id content he => hc id content ((neat.restaged.same l id content (hl.place ho') before).mpr he)
  refine ⟨⟨Nat.le_trans neat.restaged.next restaged.next, fun l id content hp hl => ?_⟩, fresh⟩
  by_cases before : n.StagesAt l
  · exact ⟨fun he => absurd he (ho.left_cleared i before hl id content),
      fun he => absurd he (neat.fresh l before id content)⟩
  · exact (restaged.same l id content hp fun h => h.elim before hl).trans
      (neat.restaged.same l id content hp before)

theorem Endures.neat (run : Endures ⟨u, .empty⟩ v h m w) : Neat v m w := by
  induction run with
  | rest => exact ⟨.refl _ v, fun l ⟨_, _, _, ht, _⟩ => by cases ht⟩
  | @event h m w e run ih =>
    have ho := (run.orderly (orderly_start u v)).1
    exact ih.meet ho (.event e) (ho.event e)
  | @mishap h m w x name chunk run _ ih =>
    have ho := (run.orderly (orderly_start u v)).1
    exact ih.meet ho (.mishap x name chunk) (ho.mishap x name chunk)
  | use _ kept ih =>
    have restaged : Restaged (fun _ => False) _ _ := kept.restaged fun _ hp hl => hl.2 hp
    exact ⟨ih.restaged.trans (restaged.mono fun _ => False.elim), ih.fresh⟩

/-- Staging files never leak. After any run each file at the place of a staging file was there from the start
    or is the staging file of just one transfer of one session, and what was there from the start is still
    there. Every transfer has its staging file, which is as long as was announced. What happens next leaves
    alone the transfers that it is not about and their files. A transfer is ended by just what `Incident.Ends`
    lists, and when it ends its file goes, however it ends. -/
theorem Endures.staging_files (run : Endures ⟨u, .empty⟩ v h m w) :
    (∀ l id content, StagingPlace l → w.lookup l = some (.file id content) → v.lookup l = some (.file id content) ∨
      ∃! holder : String × String, ∃ t, (m.session holder.1).transfers.get? holder.2 = some t ∧
      t.staging = ⟨l, id⟩) ∧
    (∀ l id content, StagingPlace l → v.lookup l = some (.file id content) → w.lookup l = some (.file id content)) ∧
    (∀ name path t, (m.session name).transfers.get? path = some t →
      StagingPlace t.staging.location ∧ v.Cleared t.staging.location ∧
        (∃ content, w.lookup t.staging.location = some (.file t.staging.id content) ∧ content.size = t.size.toNat) ∧
        ∃ x ∈ h, ∃ notice : NewVersion, x.event = .message name (.newVersion notice) ∧ notice.path = path ∧
          notice.client = t.client ∧ notice.size = t.size) ∧
    ∀ (i : Incident) name path t, (m.session name).transfers.get? path = some t →
      (¬i.concerns name path → ((i.meet m w).1.session name).transfers.get? path = some t ∧
        (i.meet m w).2.lookup t.staging.location = w.lookup t.staging.location) ∧
      (i.Ends m w name path t ↔ i.Ended m w name path t) ∧
      (i.Ended m w name path t → (i.meet m w).2.Cleared t.staging.location) := by
  have ho := (run.orderly (orderly_start u v)).1
  have neat := run.neat
  refine ⟨fun l id content hp hlook => ?_, fun l id content hp hlook => ?_, fun name path t ht => ?_,
    fun i name path t ht => ⟨ho.unconcerned ht, ho.ends_iff ht, ho.ends ht i⟩⟩
  · by_cases hl : m.StagesAt l
    · obtain ⟨name, path, t, ht, rfl⟩ := hl
      obtain ⟨-, -, content', hread⟩ := ho.held name path t ht
      rw [read?_eq_some.mp hread] at hlook
      cases hlook
      refine Or.inr ⟨(name, path), ⟨t, ht, rfl⟩, fun ⟨name', path'⟩ ⟨t', ht', he⟩ => ?_⟩
      obtain ⟨rfl, rfl⟩ := ho.apart ht' ht (by rw [he])
      rfl
    · exact Or.inl ((neat.restaged.same l id content hp hl).mp hlook)
  · exact (neat.restaged.same l id content hp fun hl => neat.fresh l hl id content hlook).mpr hlook
  · obtain ⟨content, hread, sized⟩ := run.staged ht
    refine ⟨(ho.held name path t ht).2.1, neat.fresh _ ⟨name, path, t, ht, rfl⟩,
      ⟨content, read?_eq_some.mp hread, ?_⟩, sized.announced⟩
    rw [Content.size_eq, sized.length]

end Neat

/-- Two peers announce content for one path. -/
def sampleBoth : List Event :=
  [.message "one" (.newVersion ⟨"a", 0, 1, 3⟩), .message "two" (.newVersion ⟨"a", 0, 1, 5⟩)]

def sampleShared : Node × Volume := Node.run sampleBoth ⟨sampleSetup, .empty⟩ (sampleVolume [])

/-- The first peer serves another edit count than it announced. -/
def sampleRejected : Message := .fileChunk ⟨"a", 7, 0, [1]⟩

/-- The first peer serves all of its content at once. -/
def sampleWhole : Message := .fileChunk ⟨"a", 1, 0, [1, 2, 3]⟩

theorem sample_staging :
    Endures ⟨sampleSetup, .empty⟩ (sampleVolume []) (moments sampleBoth ⟨sampleSetup, .empty⟩ (sampleVolume []))
        sampleShared.1 sampleShared.2 ∧
      ∃ t t', (sampleShared.1.session "one").transfers.get? "a" = some t ∧
        (sampleShared.1.session "two").transfers.get? "a" = some t' ∧
        t.staging.location = ["r", ".a.000002.tsstage"] ∧ t'.staging.location = ["r", ".a.000003.tsstage"] ∧
        (sampleShared.1.close "one" sampleShared.2).2.Cleared t.staging.location ∧
        ((Incident.event (.message "one" sampleRejected)).meet sampleShared.1 sampleShared.2).2.Cleared
          t.staging.location ∧
        ((Incident.event (.message "one" sampleWhole)).meet sampleShared.1 sampleShared.2).2.Cleared
          t.staging.location ∧
        ∃ content, (sampleShared.1.close "one" sampleShared.2).2.lookup t'.staging.location =
          some (.file t'.staging.id content) ∧
          content.size = 5 := by
  have run : Endures _ _ _ sampleShared.1 sampleShared.2 :=
    endures_of_passes (passes_run sampleBoth ⟨sampleSetup, .empty⟩ (sampleVolume []))
  have one : ((sampleShared.1.session "one").transfers.get? "a").map (fun t =>
      (t.staging.location, t.fault? ⟨"a", 7, 0, [1]⟩, (t.note ⟨"a", 1, 0, [1, 2, 3]⟩).2.complete)) =
      some (["r", ".a.000002.tsstage"], some (.stale (.otherVersion "a" 7 1)), true) := by decide +kernel
  have two : ((sampleShared.1.session "two").transfers.get? "a").map (fun t => (t.staging.location, t.size)) =
      some (["r", ".a.000003.tsstage"], 5) := by decide +kernel
  obtain ⟨t, ht, hone⟩ := Option.map_eq_some_iff.mp one
  obtain ⟨hone, hrest⟩ := Prod.mk.inj hone
  obtain ⟨hfault, hcomplete⟩ := Prod.mk.inj hrest
  obtain ⟨t', ht', htwo⟩ := Option.map_eq_some_iff.mp two
  obtain ⟨-, -, stands, next⟩ := run.staging_files
  obtain ⟨-, -, ⟨content, hlook, hsize⟩, -⟩ := stands "two" "a" t' ht'
  have gone : ∀ i : Incident, i.Ends sampleShared.1 sampleShared.2 "one" "a" t →
      (i.meet sampleShared.1 sampleShared.2).2.Cleared t.staging.location := fun i ends =>
    (next i "one" "a" t ht).2.2 ((next i "one" "a" t ht).2.1.mp ends)
  have stays := (next (.event (.close "one")) "two" "a" t' ht').1 (by simp [Incident.concerns])
  obtain ⟨hplace, hfive⟩ := Prod.mk.inj htwo
  rw [hfive] at hsize
  have heard : (sampleShared.1.session "one").gated sampleShared.1.setup sampleRejected = false ∧
      (sampleShared.1.session "one").gated sampleShared.1.setup sampleWhole = false := by decide +kernel
  have closed := gone (.event (.close "one")) .close
  have rejected := gone (.event (.message "one" sampleRejected)) (.chunk rfl heard.1 (.rejected hfault))
  have whole := gone (.event (.message "one" sampleWhole)) (.chunk rfl heard.2 (.completed hcomplete))
  exact ⟨run, t, t', ht, ht', hone, hplace, closed, rejected, whole, content, stays.2.trans hlook, hsize⟩

end Node

end TreeReplica
