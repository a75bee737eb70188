import Mdock.Editor.Session

/-! Lost updates between editors. The server compares no versions, so a save is safe only
under a lock that was held without a break since the session last saw the file. -/
namespace Mdock.Editor
open Mdock.Go Mdock.Lib Mdock.Locks
open Mdock.App (World)

/-- Between a save and what it is based on, nobody else has saved. -/
def NoLostUpdate (saves : List Save) : Prop :=
  ∀ i (e : Save) b, saves[i]? = some e → e.basis = some b →
    ∀ j (e' : Save), b ≤ j → j < i → saves[j]? = some e' → e'.owner = e.owner

/-- A lock of somebody else stands while the write reads the clock. -/
def Refused (site : Site) (w : World) (now : Nat → Instant) (o : Owner) : Prop :=
  ∃ r ∈ w.locks.rows, r.key = site.key ∧ r.owner ≠ o.1 ∧ InForce r (now 1) ∧ InForce r (now 2)

instance (site : Site) (w : World) (now : Nat → Instant) (o : Owner) :
    Decidable (Refused site w now o) := inferInstanceAs (Decidable (∃ r ∈ _, _))

/-- The session holds the lock, the same as when it was stamped. -/
def Held (site : Site) (srv : Server) (o : Owner) (st : Stamp) : Prop :=
  srv.holder site = some o.1 ∧ st.tenure = some srv.tenure

instance (site : Site) (srv : Server) (o : Owner) (st : Stamp) : Decidable (Held site srv o st) :=
  inferInstanceAs (Decidable (_ ∧ _))

/-- A write is served to a session that has held its lock since it last read or saved, or
is refused. -/
def writeGuard (site : Site) (s : State) : Act → Bool
  | .serve c now _ =>
    match s.call c with
    | some ⟨o, .saveWrite _, true, _, _⟩ =>
      decide (Refused site s.server.world now o) ||
        (s.basis o).all fun st => decide (Held site s.server o st)
    | _ => true
  | _ => true

/-! ### What a stamp is worth -/

/-- While the session has held the lock since its stamp, it alone has saved. -/
structure Stamp.Sound (site : Site) (srv : Server) (o : Owner) (st : Stamp) : Prop where
  tenure_le : ∀ n, st.tenure = some n → n ≤ srv.tenure
  alone : Held site srv o st → ∀ j (e : Save), st.saves ≤ j → srv.saves[j]? = some e → e.owner = o

variable {site : Site} {srv : Server} {now : Nat → Instant} {queueOk : Bool} {o : Owner}
  {st : Stamp} {w : World}

theorem Stamp.Sound.enter (h : st.Sound site srv o) (w : World) :
    st.Sound site (srv.enter site w) o := by
  by_cases hw : App.Service.holder w.locks site.key = srv.holder site
  · have ht : (srv.enter site w).tenure = srv.tenure := if_pos hw
    refine ⟨fun n hn => ht ▸ h.tenure_le n hn, fun hheld => h.alone ⟨?_, ?_⟩⟩
    · rw [← hw]
      exact hheld.1
    · rw [← ht]
      exact hheld.2
  · -- the lock has changed hands
    have ht : (srv.enter site w).tenure = srv.tenure + 1 := if_neg hw
    refine ⟨fun n hn => ?_, fun hheld => ?_⟩
    · have hle := h.tenure_le n hn
      omega
    · have hle := h.tenure_le _ (ht ▸ hheld.2)
      omega

theorem sound_stamp (site : Site) (srv : Server) (o : Owner) :
    (srv.stamp site o).Sound site srv o := by
  refine ⟨fun n hn => ?_, fun _ j e hj he => ?_⟩
  · simp only [Server.stamp] at hn
    split at hn
    · exact le_of_eq (Option.some.inj hn).symm
    · cases hn
  · have hlt := (List.getElem?_eq_some_iff.mp he).1
    simp only [Server.stamp] at hj
    omega

/-- A save that goes through was not refused, and leaves the lock with its owner or free. -/
theorem answer_write {content data : Bytes} {w' : World}
    (h : site.answer now queueOk o w (.saveWrite content) = (.ok data, w')) :
    ¬ Refused site w now o ∧ (App.Service.holder w'.locks site.key = some o.1 ∨
      App.Service.holder w'.locks site.key = none) := by
  simp only [Site.answer, respond] at h
  split at h
  · rename_i a w₁ hw
    cases h
    have hfile : App.Service.fileMutationContext { site.service with queueOk := queueOk }
        (site.user o) site.vaultSlug site.relPath false = .ok (site.item, site.rel) :=
      site.oneFile o
    obtain ⟨hfree, hholder⟩ := App.Service.writeTextFile_holder hfile o.2 hw
    exact ⟨fun ⟨r, hr, hk, hne, h1, h2⟩ => hne (hfree r hr hk h1 h2), hholder⟩
  · cases h

theorem writes_iff {a : Await} : a.writes = true ↔ ∃ content, a = .saveWrite content := by
  cases a <;> simp [Await.writes]

/-- Every stamp is worth what it was after a request of anybody. -/
theorem Stamp.Sound.handle (h : st.Sound site srv o) (o' : Owner) (a : Await)
    (basis : Option Nat) : st.Sound site (srv.handle site now queueOk o' a basis).2 o := by
  unfold Server.handle
  split
  · exact h.enter _
  · rename_i data w hans
    have hent := h.enter w
    cases ha : a.writes with
    | false => exact hent
    | true =>
      refine ⟨hent.tenure_le, fun hheld j e hj he => ?_⟩
      rcases getElem?_concat_cases he with he | ⟨-, rfl⟩
      · exact hent.alone hheld j e hj he
      · -- whoever saved has the lock, if anybody has
        obtain ⟨content, rfl⟩ := writes_iff.mp ha
        have hfree : App.Service.holder w.locks site.key = some o.1 := hheld.1
        rcases (answer_write hans).2 with hown | hnone
        · rw [hown] at hfree
          exact Subtype.ext (Option.some.inj hfree)
        · rw [hnone] at hfree
          cases hfree

/-- The stamp a request answers with. -/
theorem handle_stamp {a : Await} {basis : Option Nat} {data : Bytes}
    (h : (srv.handle site now queueOk o a basis).1 = .ok (data, st)) :
    st.Sound site (srv.handle site now queueOk o a basis).2 o := by
  unfold Server.handle at h ⊢
  split at h
  · cases h
  · cases h
    exact sound_stamp _ _ _

/-- A request that is no write, is refused, or comes from a session that has held its lock
loses no update. -/
theorem handle_noLostUpdate (h : NoLostUpdate srv.saves) (a : Await) {known : Option Stamp}
    (hknown : ∀ st, known = some st → st.Sound site srv o)
    (hg : a.writes = true → Refused site srv.world now o ∨
      ∀ st, known = some st → Held site srv o st) :
    NoLostUpdate (srv.handle site now queueOk o a (known.map Stamp.saves)).2.saves := by
  unfold Server.handle
  split
  · exact h
  · rename_i data w hans
    cases ha : a.writes with
    | false => exact h
    | true =>
      obtain ⟨content, rfl⟩ := writes_iff.mp ha
      have hheld := (hg ha).resolve_left (answer_write hans).1
      intro i e b hi hb j e' hbj hji hj
      have hj' : srv.saves[j]? = some e' := by
        rcases getElem?_concat_cases hj with hj | ⟨rfl, -⟩
        · exact hj
        · have hlt : i < (srv.saves ++ [(⟨o, known.map Stamp.saves⟩ : Save)]).length :=
            (List.getElem?_eq_some_iff.mp hi).1
          rw [List.length_append, List.length_singleton] at hlt
          omega
      rcases getElem?_concat_cases hi with hi | ⟨-, rfl⟩
      · exact h i e b hi hb j e' hbj hji hj'
      · obtain ⟨st, hst, rfl⟩ := Option.map_eq_some_iff.mp hb
        exact (hknown st hst).alone (hheld st hst) j e' hbj hj'

/-! ### What the sessions know -/

/-- The stamps of the sessions, and those in answers. -/
structure Known (site : Site) (s : State) : Prop where
  basis : ∀ o st, s.basis o = some st → st.Sound site s.server o
  reply : ∀ c call data st, s.call c = some call → call.reply = some (.ok (data, st)) →
    st.Sound site s.server call.owner
  silent : NoLostUpdate s.server.saves

/-- A step within the sessions, which brings them no answers. -/
structure NoNews (s t : State) : Prop where
  server : t.server = s.server
  basis : t.basis = s.basis
  reply : ∀ c call r, t.call c = some call → call.reply = some (.ok r) →
    ∃ c₀ call₀, s.call c₀ = some call₀ ∧ call₀.owner = call.owner ∧ call₀.reply = call.reply

variable {s t u : State} {c : Nat} {a : Await} {r : Reply}

theorem NoNews.refl (s : State) : NoNews s s :=
  ⟨rfl, rfl, fun c call _ h _ => ⟨c, call, h, rfl, rfl⟩⟩

theorem NoNews.trans (h : NoNews s t) (h' : NoNews t u) : NoNews s u where
  server := h'.server.trans h.server
  basis := h'.basis.trans h.basis
  reply c call r hc hr := by
    obtain ⟨c₁, call₁, hc₁, ho₁, hr₁⟩ := h'.reply c call r hc hr
    obtain ⟨c₀, call₀, hc₀, ho₀, hr₀⟩ := h.reply c₁ call₁ r hc₁ (hr₁.trans hr)
    exact ⟨c₀, call₀, hc₀, ho₀.trans ho₁, hr₀.trans hr₁⟩

theorem Known.noNews (h : Known site s) (hn : NoNews s t) : Known site t where
  basis := by
    rw [hn.server, hn.basis]
    exact h.basis
  reply c call data st hc hr := by
    obtain ⟨c₀, call₀, hc₀, ho₀, hr₀⟩ := hn.reply c call _ hc hr
    rw [hn.server, ← ho₀]
    exact h.reply c₀ call₀ data st hc₀ (hr₀.trans hr)
  silent := by
    rw [hn.server]
    exact h.silent

theorem noNews_setSession (s : State) (o : Owner) (ss : Session) : NoNews s (s.setSession o ss) :=
  ⟨rfl, rfl, (NoNews.refl s).reply⟩

/-- A call that changes has the answer of one that was there, or none that is good. -/
theorem noNews_setCall {call : Call} (n : Nat)
    (hr : ∀ r, call.reply = some (.ok r) →
      ∃ c₀ call₀, s.call c₀ = some call₀ ∧ call₀.owner = call.owner ∧ call₀.reply = call.reply) :
    NoNews s { s.setCall c call with next := n } := by
  refine ⟨rfl, rfl, (Function.forall_update_iff s.call fun _ k' => ∀ k r, k' = some k →
    k.reply = some (.ok r) → ∃ c₀ call₀, s.call c₀ = some call₀ ∧ call₀.owner = k.owner ∧
      call₀.reply = k.reply).mpr ⟨?_, fun c' _ k _ hk _ => ⟨c', k, hk, rfl, rfl⟩⟩⟩
  rintro k r hk hkr
  cases hk
  exact hr r hkr

theorem noNews_send (s : State) (o : Owner) (a : Await) : NoNews s (s.send o a) :=
  noNews_setCall _ fun _ hr => nomatch hr

theorem noNews_settle (s : State) (o : Owner) : NoNews s (s.settle o) :=
  noNews_setCall _ fun _ hr => nomatch hr

theorem noNews_scheduleHeartbeat (s : State) (o : Owner) : NoNews s (s.scheduleHeartbeat o) := by
  unfold State.scheduleHeartbeat
  split
  · exact (noNews_setSession s o _).trans (noNews_send _ _ _)
  · exact noNews_setSession s o _

theorem noNews_startHeartbeat (s : State) (o : Owner) : NoNews s (s.startHeartbeat o) :=
  (noNews_setSession s o _).trans (noNews_scheduleHeartbeat _ o)

theorem noNews_leave (s : State) (o : Owner) (a : Await) : NoNews s (s.leave o a) := by
  unfold State.leave
  split
  · exact ((noNews_setSession s o _).trans (noNews_setSession _ o _)).trans (noNews_send _ _ _)
  · exact noNews_setSession s o _

/-- A call that goes on learns at most what its answer says. -/
theorem resume_cases (s : State) (o : Owner) (a : Await) (r : Reply) :
    NoNews s (s.resume o a r) ∨
      ∃ data st, r = .ok (data, st) ∧ NoNews (s.sees o st) (s.resume o a r) := by
  unfold State.resume
  split
  · exact .inl ((noNews_setSession s o _).trans (noNews_send _ _ _))
  · exact .inr ⟨_, _, rfl, noNews_startHeartbeat _ o⟩
  · exact .inl (noNews_leave s o _)
  · exact .inl (((noNews_setSession s o _).trans (noNews_startHeartbeat _ o)).trans
      (noNews_send _ _ _))
  · exact .inr ⟨_, _, rfl, .refl _⟩
  · exact .inl ((noNews_setSession s o _).trans (noNews_settle _ o))
  · exact .inl ((noNews_setSession s o _).trans (noNews_settle _ o))
  · exact .inl (noNews_settle s o)
  · exact .inl (noNews_setSession s o _)
  · exact .inl (.refl s)

theorem Known.sees (h : Known site s) (hst : st.Sound site s.server o) :
    Known site (s.sees o st) where
  basis := by
    refine (Function.forall_update_iff s.basis fun o' b =>
      ∀ st', b = some st' → st'.Sound site s.server o').mpr ⟨?_, fun o' _ => h.basis o'⟩
    rintro st' hb
    cases hb
    exact hst
  reply := h.reply
  silent := h.silent

theorem deliver_known {onItsWay : Bool} (h : Known site s)
    (hc : s.call c = some ⟨o, a, onItsWay, some r, true⟩) :
    Known site ((s.setCall c ⟨o, a, onItsWay, some r, false⟩).resume o a r) := by
  have hread : Known site (s.setCall c ⟨o, a, onItsWay, some r, false⟩) :=
    h.noNews (noNews_setCall s.next fun _ _ => ⟨c, _, hc, rfl, rfl⟩)
  rcases resume_cases (s.setCall c ⟨o, a, onItsWay, some r, false⟩) o a r with
    hn | ⟨data, st, rfl, hn⟩
  · exact hread.noNews hn
  · exact (hread.sees (h.reply c _ data st hc rfl)).noNews hn

theorem serve_known {call : Call} (h : Known site s) (hc : s.call c = some call)
    (hg : call.await.writes = true → Refused site s.server.world now call.owner ∨
      ∀ st, s.basis call.owner = some st → Held site s.server call.owner st) :
    Known site (s.serve site c now queueOk call) where
  basis o st hb := (h.basis o st hb).handle call.owner call.await _
  reply := by
    refine (Function.forall_update_iff s.call fun _ k' => ∀ k data st, k' = some k →
      k.reply = some (.ok (data, st)) → st.Sound site (s.server.handle site now queueOk
        call.owner call.await ((s.basis call.owner).map Stamp.saves)).2 k.owner).mpr
      ⟨?_, fun c' _ k data st hk hr =>
        (h.reply c' k data st hk hr).handle call.owner call.await _⟩
    rintro k data st hk hr
    cases hk
    simp only at hr
    split at hr
    · exact handle_stamp (Option.some.inj hr)
    · exact (h.reply c call data st hc hr).handle call.owner call.await _
  silent := handle_noLostUpdate h.silent call.await (h.basis call.owner) hg

theorem serveGuard_of_writeGuard {call : Call}
    (hg : writeGuard site s (.serve c now queueOk) = true) (hc : s.call c = some call)
    (hway : call.onItsWay = true) (hw : call.await.writes = true) :
    Refused site s.server.world now call.owner ∨
      ∀ st, s.basis call.owner = some st → Held site s.server call.owner st := by
  obtain ⟨o, a, onItsWay, reply, waits⟩ := call
  obtain ⟨content, rfl⟩ := writes_iff.mp hw
  simp only at hway
  subst hway
  simp only [writeGuard, hc, Bool.or_eq_true, decide_eq_true_eq, Option.all_eq_true] at hg
  exact hg

theorem step_known {act : Act} (h : Known site s) (hg : writeGuard site s act = true)
    (hs : step site s act = some t) : Known site t := by
  cases act with
  | callOpen o =>
    cases hs
    exact h.noNews (noNews_send _ _ _)
  | callSave o content =>
    cases hs
    exact h.noNews (noNews_send _ _ _)
  | callClose o =>
    cases hs
    exact h.noNews (noNews_leave _ _ _)
  | callHide o =>
    cases hs
    exact h.noNews (noNews_leave _ _ _)
  | timer o n =>
    simp only [step, Option.ite_none_right_eq_some, Option.some.injEq] at hs
    obtain ⟨-, rfl⟩ := hs
    exact h.noNews ((noNews_setSession s o _).trans (noNews_scheduleHeartbeat _ o))
  | serve c now queueOk =>
    simp only [step] at hs
    split at hs
    · rename_i call hc
      simp only [Option.ite_none_right_eq_some, Option.some.injEq] at hs
      obtain ⟨hway, rfl⟩ := hs
      exact serve_known h hc (serveGuard_of_writeGuard hg hc hway)
    · cases hs
  | lose c =>
    simp only [step] at hs
    split at hs
    · cases hs
      exact h.noNews (noNews_setCall s.next fun _ hr => nomatch hr)
    · cases hs
  | deliver c =>
    simp only [step] at hs
    split at hs
    · rename_i hc
      cases hs
      exact deliver_known h hc
    · cases hs

theorem known_init (h : (machine site).init s) : Known site s := by
  obtain ⟨hsaves, -, hcall, hbasis⟩ := h
  refine ⟨fun o st hb => ?_, fun c call data st hc => ?_, fun i e b hi => ?_⟩
  · rw [hbasis] at hb
    cases hb
  · rw [hcall] at hc
    cases hc
  · rw [hsaves] at hi
    cases hi

/-- In runs whose writes come from sessions that have held their lock since they last read
or saved, or are refused, no save loses the update of another. -/
theorem no_lost_update (site : Site) (s : State)
    (h : (machine site).ReachVia (fun s act => writeGuard site s act = true) s) :
    NoLostUpdate s.server.saves :=
  (h.invariant (fun _ => known_init) fun _ _ _ => step_known).silent

/-! ### Two editors of one note -/

def noteSite : Site where
  service := ⟨Vault.noteService, 30000000000, fun _ _ => some ⟨1, utf8 "notes", utf8 "v"⟩,
    fun _ _ _ _ => none, true⟩
  user _ := 1
  vaultSlug := utf8 "notes"
  relPath := utf8 "a.md"
  item := ⟨1, utf8 "notes", utf8 "v"⟩
  rel := utf8 "a.md"
  oneFile _ := by decide +kernel

def closed : State where
  server := ⟨⟨Vault.notes, Keyed.empty⟩, [], 0⟩
  session _ := {}
  call _ := none
  next := 0
  basis _ := none

theorem closed_init : (machine noteSite).init closed :=
  ⟨rfl, fun _ => rfl, fun _ => rfl, fun _ => rfl⟩

def alice : Owner := ⟨utf8 "web:1:a", by decide⟩
def bob : Owner := ⟨utf8 "web:1:b", by decide⟩

/-- Open the file at a time; `c` is the number of the first call. -/
def opening (o : Owner) (c : Nat) (n : Instant) : List Act :=
  [.callOpen o, .serve c (fun _ => n) true, .deliver c, .serve (c + 1) (fun _ => n) true,
    .deliver (c + 1)]

/-- Save as call `c`. -/
def saving (o : Owner) (content : String) (c : Nat) (n : Instant) : List Act :=
  [.callSave o (utf8 content), .serve c (fun _ => n) true, .deliver c]

/-- The lock of one editor runs out, another opens, saves and closes, and the first saves. -/
theorem lost_update : ¬ ∀ s, (machine noteSite).Reach s → NoLostUpdate s.server.saves := by
  intro h
  have hinit : (machine noteSite).Reach closed := .init closed_init
  obtain ⟨s, hs, hp⟩ := hinit.run_any
    (opening alice 0 0 ++ opening bob 3 60000000000 ++ saving bob "bob" 6 60000000000 ++
      [.callClose bob, .serve 7 (fun _ => 60000000000) true, .deliver 7] ++
      saving alice "alice" 8 60000000000)
    (p := fun s => decide (s.server.saves = [⟨bob, some 0⟩, ⟨alice, some 0⟩])) (by decide +kernel)
  have hsaves := h s hs
  rw [of_decide_eq_true hp] at hsaves
  exact absurd (hsaves 1 _ 0 rfl rfl 0 _ le_rfl Nat.zero_lt_one rfl) (by decide)

/-- One editor saves twice and closes before the other opens. -/
theorem no_lost_update_in_turn : ∃ s : State,
    s.server.saves = [⟨alice, some 0⟩, ⟨alice, some 1⟩, ⟨bob, some 2⟩] ∧
      NoLostUpdate s.server.saves := by
  have hinit : (machine noteSite).ReachVia (fun s act => writeGuard noteSite s act = true)
      closed := .init closed_init
  obtain ⟨s, hs, hp⟩ := hinit.run_any
    (opening alice 0 0 ++ saving alice "draft" 3 0 ++ saving alice "alice" 4 0 ++
      [.callClose alice, .serve 5 (fun _ => 0) true, .deliver 5] ++
      opening bob 6 60000000000 ++ saving bob "bob" 9 60000000000)
    (p := fun s => decide (s.server.saves =
      [⟨alice, some 0⟩, ⟨alice, some 1⟩, ⟨bob, some 2⟩])) (by decide +kernel)
  exact ⟨s, of_decide_eq_true hp, no_lost_update noteSite s hs⟩

end Mdock.Editor
