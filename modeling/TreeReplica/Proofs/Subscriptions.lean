import TreeReplica.Notice.Subscription
import TreeReplica.Proofs.Path
import TreeReplica.Proofs.Strangers

/-! What a peer hears of. A subscription and a path are compared by their characters; for a path in its
    shortest form that comes to comparing names (`Subscription.covers_iff`). A session is subscribed to what
    was asked for, was not refused and was not given up since (`Passes.subscribed_iff`), and exactly the
    notices of these parts of the tree are sent to it (`Passes.notices_reach`). -/

namespace TreeReplica
open Volume

/-! ### Texts in their shortest form -/

namespace Path

/-- A text in its shortest form: names with single slashes between them, and no blank ones. -/
def Canonical (path : String) : Prop := ∀ piece ∈ pieces path, blank piece = false

instance (path : String) : Decidable (Canonical path) :=
  inferInstanceAs (Decidable (∀ piece ∈ pieces path, blank piece = false))

theorem Canonical.names_eq {path : String} (h : Canonical path) : names path = pieces path :=
  List.filter_eq_self.mpr fun piece hp => by rw [h piece hp, Bool.not_false]

theorem pieces_injective {a b : String} (h : pieces a = pieces b) : a = b := by
  rw [← String.toList_inj, toList_eq_intercalate, h, ← toList_eq_intercalate]

theorem pieces_path_ne_nil (path : String) : pieces path ≠ [] := by
  unfold pieces
  simp [TreeReplica.pieces_ne_nil]

theorem Canonical.getLast?_ne {path : String} (h : Canonical path) : path.toList.getLast? ≠ some '/' := by
  intro hlast
  obtain ⟨front, hf⟩ := List.getLast?_eq_some_iff.mp hlast
  have hpath : path = String.ofList front ++ "/" ++ "" := by
    rw [← String.toList_inj, hf]
    simp
  have hblank : blank "" = false := by
    refine h "" ?_
    rw [hpath, pieces_slash]
    exact List.mem_append_right _ (by decide)
  exact absurd hblank (by decide)

end Path

namespace Subscription
open TreeReplica.Path

/-! ### Characters and names -/

theorem behind_eq_some {front text rest : List Char} : behind front text = some rest ↔ text = front ++ rest := by
  induction front generalizing text with
  | nil => simp [behind, eq_comm]
  | cons c front ih =>
    cases text with
    | nil => simp [behind]
    | cons d text =>
      unfold behind
      split
      · rename_i hcd
        simp [ih, hcd]
      · rename_i hcd
        simp [Ne.symm hcd]

theorem trimSlashes_eq {chars : List Char} (h : chars.getLast? ≠ some '/') (n : Nat) :
    trimSlashes (chars ++ List.replicate n '/') = chars := by
  unfold trimSlashes
  rw [List.reverse_append, List.reverse_replicate,
    List.dropWhile_append_of_pos fun c hc => by simp [List.eq_of_mem_replicate hc]]
  cases hr : chars.reverse with
  | nil => rw [List.reverse_eq_nil_iff.mp hr]; rfl
  | cons c rest =>
    rw [← List.head?_reverse, hr, List.head?_cons] at h
    rw [List.dropWhile_cons_of_neg (by simpa using h), ← hr, List.reverse_reverse]

theorem append_slashes (chars : List Char) : ∃ n, chars = trimSlashes chars ++ List.replicate n '/' := by
  refine ⟨(chars.reverse.takeWhile (· = '/')).length, ?_⟩
  have hall : (chars.reverse.takeWhile (· = '/')) = List.replicate (chars.reverse.takeWhile (· = '/')).length '/' :=
    List.eq_replicate_iff.mpr ⟨rfl, fun c hc => by simpa using List.all_eq_true.mp List.all_takeWhile c hc⟩
  rw [trimSlashes, ← List.reverse_replicate, ← hall, ← List.reverse_append, List.takeWhile_append_dropWhile,
    List.reverse_reverse]

theorem covers_eq_true {subscribed path : String} : covers subscribed path = true ↔
    subscribed = "" ∨ subscribed = path ∨ ∃ rest, path.toList = trimSlashes subscribed.toList ++ '/' :: rest := by
  unfold covers
  rw [Bool.or_eq_true, Bool.or_eq_true, decide_eq_true_iff, decide_eq_true_iff, or_assoc]
  refine or_congr_right (or_congr_right ⟨fun h => ?_, ?_⟩)
  · split at h
    · rename_i c rest hb
      obtain rfl : c = '/' := by simpa using h
      exact ⟨rest, behind_eq_some.mp hb⟩
    · cases h
  · rintro ⟨rest, hr⟩
    rw [behind_eq_some.mpr hr]
    simp

/-- A subscription is to a path: to everything, to the path itself, or to a directory above it, with or
    without slashes behind its text. -/
def Means (subscribed path : String) : Prop :=
  subscribed = "" ∨ subscribed = path ∨ ∃ front slashes, Canonical front ∧
    subscribed = front ++ String.ofList (List.replicate slashes '/') ∧ names front <+: names path ∧
    names front ≠ names path

variable {subscribed path : String}

theorem covers_iff (canonical : Canonical path) : covers subscribed path = true ↔ Means subscribed path := by
  rw [covers_eq_true, Means]
  refine or_congr_right (or_congr_right ⟨?_, ?_⟩)
  · rintro ⟨rest, hr⟩
    obtain ⟨n, hn⟩ := append_slashes subscribed.toList
    have hpath : path = String.ofList (trimSlashes subscribed.toList) ++ "/" ++ String.ofList rest := by
      rw [← String.toList_inj, hr]
      simp
    have hpieces := congrArg Path.pieces hpath
    rw [pieces_slash] at hpieces
    have hfront : Canonical (String.ofList (trimSlashes subscribed.toList)) := fun piece hp =>
      canonical piece (hpieces ▸ List.mem_append_left _ hp)
    refine ⟨_, n, hfront, ?_, ?_⟩
    · rw [← String.toList_inj, String.toList_append, String.toList_ofList, String.toList_ofList]
      exact hn
    · rw [hfront.names_eq, canonical.names_eq, hpieces]
      refine ⟨List.prefix_append _ _, fun he => pieces_path_ne_nil (String.ofList rest) ?_⟩
      exact List.append_right_eq_self.mp he.symm
  · rintro ⟨front, n, hfront, rfl, ⟨more, hm⟩, hne⟩
    rw [hfront.names_eq, canonical.names_eq] at hm hne
    have hmore : more ≠ [] := fun hnil => hne (by rw [← hm, hnil, List.append_nil])
    have hslash : ∀ p ∈ more, '/' ∉ p.toList := fun p hp =>
      slash_not_mem_of_mem_pieces (hm ▸ List.mem_append_right _ hp)
    -- The pieces of the path are those of the directory and some more, and a text is known by its pieces.
    have hpath : path = front ++ "/" ++ "/".intercalate more := pieces_injective <| by
      rw [pieces_slash, pieces_intercalate_slash hmore hslash, hm]
    refine ⟨("/".intercalate more).toList, ?_⟩
    rw [String.toList_append, String.toList_ofList, trimSlashes_eq hfront.getLast?_ne, hpath]
    simp

/-- A subscription that covers a path names a directory above it, by its names and not by its characters. -/
theorem names_prefix_of_covers (canonical : Canonical path) (h : covers subscribed path = true) :
    names subscribed <+: names path := by
  rcases (covers_iff canonical).mp h with rfl | rfl | ⟨front, n, -, rfl, hp, -⟩
  · exact List.nil_prefix
  · exact List.prefix_rfl
  · have hslashes : ∀ n, names (front ++ String.ofList (List.replicate n '/')) = names front := by
      intro n
      induction n with
      | zero => simp
      | succ n ih =>
        have hone : front ++ String.ofList (List.replicate (n + 1) '/') =
            front ++ String.ofList (List.replicate n '/') ++ "/" ++ "" := by
          rw [← String.toList_inj]
          simp [List.replicate_succ']
        rw [hone, names, pieces_slash, List.filter_append, ← names, ih]
        exact List.append_nil _
    rwa [hslashes]

example : covers "docs//" "docs/a" = true ∧ covers "docs" "docs2/a" = false ∧
    covers "docs/a/" "docs/a" = false := by decide

theorem mem_add {text new : String} {texts : List String} : text ∈ add new texts ↔ text = new ∨ text ∈ texts := by
  induction texts with
  | nil => simp [add]
  | cons first rest ih =>
    unfold add
    split
    · rename_i he
      subst he
      simp
    · split
      · simp
      · rw [List.mem_cons, List.mem_cons, ih, or_left_comm]

end Subscription

/-! ### What a session is subscribed to -/

/-- A subscription is added unless it is refused, and goes when it is given up; nothing else changes them. -/
theorem Session.mem_subscriptions_answer {u : Setup} {m : Message} {s : Session} {v : Volume} {text : String} :
    text ∈ (s.answer u m v).2.1.subscriptions ↔
      (m = .subscribe text ∧ (s.answer u m v).1 = .ok .silent) ∨
        (text ∈ s.subscriptions ∧ ¬(m = .unsubscribe text ∧ (s.answer u m v).1 = .ok .silent)) := by
  have refused : ∀ nack, Except.ok (ε := Fault) (Answer.reply (.nack nack)) ≠ .ok .silent :=
    fun nack h => by cases h
  rcases s.answer_cases u m v with ⟨-, nack, -, h⟩ | ⟨-, a, s', w, hh, h⟩
  · simp [h, refused]
  have hs : (s.answer u m v).2.1 = (s.handle u m v).2.1 := by
    rw [hh]
    rcases h with ⟨answer, -, h⟩ | ⟨e, answer, -, h, -⟩ <;> rw [h]
  have hok : (s.answer u m v).1 = .ok .silent ↔ (s.handle u m v).1 = .ok .silent := by
    rw [hh]
    rcases h with ⟨answer, rfl, h⟩ | ⟨e, answer, rfl, h, ⟨-, rfl⟩ | ⟨-, nack, -, rfl⟩⟩ <;> simp [h, refused]
  rw [hs, hok]
  cases m with
  | subscribe path =>
    show text ∈ (subscribe u path s).2.subscriptions ↔
      (Message.subscribe path = .subscribe text ∧ (subscribe u path s).1 = .ok .silent) ∨ _
    unfold subscribe
    dsimp only
    split
    · simp [Subscription.mem_add, eq_comm]
    · split <;> simp [Subscription.mem_add, eq_comm]
  | unsubscribe path =>
    show text ∈ s.subscriptions.filter (· ≠ path) ↔ _
    simp [handle, @eq_comm _ path text]
  | _ =>
    simp only [reduceCtorEq, false_and, false_or, not_false_eq_true, and_true]
    exact Iff.rfl

namespace Moment

/-- The peer of a session asked for what lies under a text, and was not refused. -/
def Subscribes (x : Moment) (name text : String) : Prop :=
  x.said? name = some (.subscribe text) ∧ x.told? name = some (.ok .silent)

/-- The peer of a session gave up what it had asked for under a text, or the session ended. -/
def Unsubscribes (x : Moment) (name text : String) : Prop :=
  x.event = .close name ∨ (x.said? name = some (.unsubscribe text) ∧ x.told? name = some (.ok .silent))

/-- After a history a session is subscribed to a text. -/
def Subscribed (name text : String) (h : List Moment) : Prop :=
  ∃ before x after, h = before ++ x :: after ∧ x.Subscribes name text ∧ ∀ y ∈ after, ¬y.Unsubscribes name text

theorem subscribed_concat {name text : String} {h : List Moment} {x : Moment} :
    Subscribed name text (h ++ [x]) ↔ x.Subscribes name text ∨
    (Subscribed name text h ∧ ¬x.Unsubscribes name text) := by
  constructor
  · rintro ⟨before, y, after, he, hy, hafter⟩
    rcases List.eq_nil_or_concat' after with rfl | ⟨after, z, rfl⟩
    · obtain ⟨-, he⟩ := List.append_inj' he rfl
      exact Or.inl (List.singleton_inj.mp he ▸ hy)
    · rw [← List.cons_append, ← List.append_assoc] at he
      obtain ⟨rfl, hlast⟩ := List.append_inj' he rfl
      obtain rfl := List.singleton_inj.mp hlast
      refine Or.inr ⟨⟨before, y, after, rfl, hy, fun z hz => hafter z (List.mem_append_left _ hz)⟩, ?_⟩
      exact hafter x (List.mem_append_right _ List.mem_cons_self)
  · rintro (hx | ⟨⟨before, y, after, rfl, hy, hafter⟩, hx⟩)
    · exact ⟨h, x, [], rfl, hx, fun _ hz => by cases hz⟩
    · refine ⟨before, y, after ++ [x], by simp, hy, fun z hz => ?_⟩
      rcases List.mem_append.mp hz with hz | hz
      · exact hafter z hz
      · rwa [List.mem_singleton.mp hz]

end Moment

namespace Passes
open Moment
variable {n n₀ : Node} {v v₀ : Volume} {h : List Moment} {name : String}

/-- A session is subscribed to what was asked for last and was not refused. -/
theorem subscribed_iff (run : Passes n₀ v₀ h n v) (new : n₀.session name = .new) (text : String) :
    text ∈ (n.session name).subscriptions ↔ Subscribed name text h := by
  induction run with
  | rest =>
    rw [new]
    refine ⟨fun hm => (by cases hm), ?_⟩
    rintro ⟨before, x, after, he, -⟩
    simp at he
  | @event h m w e _ ih =>
    rw [subscribed_concat, ← ih]
    cases e with
    | edit e path =>
      show text ∈ (m.session name).subscriptions ↔ _
      simp [Subscribes, Unsubscribes, said?]
    | close name' =>
      show text ∈ ((m.close name' w).1.session name).subscriptions ↔ _
      rw [Node.session_close]
      split
      · rename_i hname
        simp [Subscribes, Unsubscribes, said?, hname, Session.new]
      · rename_i hname
        simp [Subscribes, Unsubscribes, said?, hname]
    | message name' msg =>
      show text ∈ ((m.setSession name' ((m.session name').answer m.setup msg w).2.1).session name).subscriptions ↔ _
      rw [Node.session_setSession]
      split
      · rename_i hname
        subst hname
        rw [Session.mem_subscriptions_answer]
        simp [Subscribes, Unsubscribes, told?, said?, Node.answer]
      · rename_i hname
        simp [Subscribes, Unsubscribes, said?, hname]
  | use _ _ ih => exact ih

/-- After any run, a session that need not authenticate, or has, is sent the notice of a path in its shortest
    form, once and as it is, exactly if one of its subscriptions is to everything, to the path, or to a
    directory above it. A subscription never covers a path for its characters alone. -/
theorem notices_reach (run : Passes n₀ v₀ h n v) (new : n₀.session name = .new)
    (admitted : n₀.setup.config.requireAuth = true → (n.session name).authenticated = true) (notice : NewVersion)
    (canonical : Path.Canonical notice.path) :
    ((n.session name).forward n.setup notice = .reply (.newVersion notice) ↔
      ∃ text, Subscribed name text h ∧ Subscription.Means text notice.path) ∧
    ((n.session name).forward n.setup notice = .silent ↔
      ∀ text, Subscribed name text h → ¬Subscription.Means text notice.path) ∧
    ∀ text, Subscription.covers text notice.path = true → Path.names text <+: Path.names notice.path := by
  have hsub : (n.session name).subscribed notice.path = true ↔
      ∃ text, Subscribed name text h ∧ Subscription.Means text notice.path := by
    unfold Session.subscribed
    rw [List.any_eq_true]
    refine exists_congr fun text => and_congr (run.subscribed_iff new text) ?_
    exact Subscription.covers_iff canonical
  have hopen : (n.setup.config.requireAuth && !(n.session name).authenticated) = false := by
    rw [run.setup.1]
    cases hreq : n₀.setup.config.requireAuth with
    | false => rfl
    | true => rw [admitted hreq]; rfl
  have hforward : (n.session name).forward n.setup notice =
      if (n.session name).subscribed notice.path then .reply (.newVersion notice) else .silent := by
    unfold Session.forward
    rw [hopen, if_neg Bool.false_ne_true]
  have hnone : (∀ text, Subscribed name text h → ¬Subscription.Means text notice.path) ↔
      ¬(n.session name).subscribed notice.path = true := by
    rw [hsub]
    simp
  rw [← hsub, hnone, hforward]
  refine ⟨?_, ?_, fun text => Subscription.names_prefix_of_covers canonical⟩
  · split <;> rename_i hs <;> simp [hs, Answer.reply, Answer.silent]
  · split <;> rename_i hs <;> simp [hs, Answer.reply, Answer.silent]

/-! ### The sample -/

/-- A peer that has authenticated subscribes and gives up again; one subscription is refused. -/
def sampleSubscribing : List Node.Event :=
  [.message "one" (.auth "eve" (Bytes.ofText "eve")), .message "one" (.subscribe "docs//"),
    .message "one" (.subscribe "../docs3"), .message "one" (.subscribe "docs2"),
    .message "one" (.unsubscribe "docs2")]

def sampleSubscribed : Node := (Node.run sampleSubscribing ⟨guardedSetup, .empty⟩ (sampleVolume [])).1

theorem sample_notices_reach :
    (sampleSubscribed.session "one").forward guardedSetup ⟨"docs/a", 0, 1, 3⟩ =
      .reply (.newVersion ⟨"docs/a", 0, 1, 3⟩) ∧
    (sampleSubscribed.session "one").forward guardedSetup ⟨"docs2/a", 0, 1, 3⟩ = .silent := by
  have run := Node.passes_run sampleSubscribing ⟨guardedSetup, .empty⟩ (sampleVolume [])
  have admitted : guardedSetup.config.requireAuth = true →
      (sampleSubscribed.session "one").authenticated = true := fun _ => by
    decide +kernel
  have subscriptions : (sampleSubscribed.session "one").subscriptions = ["docs//"] := by decide +kernel
  refine ⟨(notices_reach run rfl admitted ⟨"docs/a", 0, 1, 3⟩ (by decide)).1.mpr ⟨"docs//", ?_, ?_⟩,
    (notices_reach run rfl admitted ⟨"docs2/a", 0, 1, 3⟩ (by decide)).2.1.mpr fun text ht hmeans => ?_⟩
  · exact (run.subscribed_iff rfl _).mp (subscriptions ▸ List.mem_singleton_self _)
  · exact Or.inr (Or.inr ⟨"docs", 2, by decide, by decide, by decide, by decide⟩)
  · have hm := (run.subscribed_iff rfl text).mpr ht
    rw [show (Node.run sampleSubscribing ⟨guardedSetup, .empty⟩ (sampleVolume [])).1 = sampleSubscribed from rfl,
      subscriptions, List.mem_singleton] at hm
    subst hm
    exact absurd ((Subscription.covers_iff (by decide)).mpr hmeans) (by decide)

end Passes

end TreeReplica
