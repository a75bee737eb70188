import Mathlib.Logic.Function.Basic

/-! A store with a second one to fall back to, and when the two are as good as one. Which of them
an access goes to is found out anew each time. -/
namespace Mdock.Lib.Fallback
variable {K : Type} {V : K → Type} {α β : Type}

/-- What programs do to a store. `change` reads a value, changes it in place where it is the
store's own, and writes it. -/
structure Storage (V : K → Type) (m : Type → Type) where
  read : (k : K) → m (V k)
  write : (k : K) → V k → m Bool
  remove : K → m Unit
  change : (k : K) → (V k → Option (V k)) → m Unit

/-- Whether an access finds the main store there, and whether that takes what is written. -/
structure Answer where
  available : Bool
  stores : Bool

/-- The main store is `store true`, the other one `store false`. `clean` says that no access passed
by a value in the store it did not go to, and that nothing written was refused. -/
structure World (V : K → Type) where
  store : Bool → (k : K) → Option (V k)
  accesses : Nat
  clean : Bool

def World.new : World V := ⟨fun _ _ => none, 0, true⟩

def look (blank : ∀ k, V k) (s : (k : K) → Option (V k)) (k : K) : V k := (s k).getD (blank k)

section Two
variable [DecidableEq K] [∀ k, DecidableEq (V k)] (blank : ∀ k, V k) (env : Nat → Answer)

def World.put (w : World V) (b : Bool) (k : K) (x : Option (V k)) : World V :=
  { w with store := Function.update w.store b (Function.update (w.store b) k x) }

/-- What an access leaves behind. -/
def World.access (w : World V) (k : K) (stored : Bool) : World V :=
  { w with
    accesses := w.accesses + 1
    clean := w.clean && decide (look blank (w.store !(env w.accesses).available) k = blank k) &&
      stored }

def read (k : K) : StateM (World V) (V k) := fun w =>
  (look blank (w.store (env w.accesses).available) k, w.access blank env k true)

def write (k : K) (x : V k) : StateM (World V) Bool := fun w =>
  let a := env w.accesses
  let w := w.access blank env k (!a.available || a.stores)
  if a.available && !a.stores then (false, w) else (true, w.put a.available k (some x))

def remove (k : K) : StateM (World V) Unit := fun w =>
  ((), (w.access blank env k true).put (env w.accesses).available k none)

def change (k : K) (f : V k → Option (V k)) : StateM (World V) Unit := fun w =>
  let found := read blank env k w
  match f found.1 with
  | none => ((), found.2)
  | some y =>
    -- only the spare store hands out its values themselves
    let own := !(env w.accesses).available && (w.store false k).isSome
    let w := if own then found.2.put false k (some y) else found.2
    ((), (write blank env k y w).2)

/-- The store with its fallback. -/
def fallback : Storage V (StateM (World V)) :=
  ⟨read blank env, write blank env, remove blank env, change blank env⟩

/-- A single store, which is always there. -/
def single : Storage V (StateM ((k : K) → V k)) where
  read k := fun v => (v k, v)
  write k x := fun v => (true, Function.update v k x)
  remove k := fun v => ((), Function.update v k (blank k))
  change k f := fun v => ((), Function.update v k ((f (v k)).getD (v k)))

end Two

/-! ### Refinement -/

section Refine
variable {blank : ∀ k, V k} {w : World V} {v : (k : K) → V k}

/-- No value is in both stores. -/
def Holds (blank : ∀ k, V k) (w : World V) (v : (k : K) → V k) : Prop :=
  ∀ k, ∃ b, look blank (w.store b) k = v k ∧ look blank (w.store !b) k = blank k

theorem holds_new : Holds blank World.new fun k => blank k := fun _ => ⟨true, rfl, rfl⟩

/-- What is not in the other store is in this one. -/
theorem Holds.here {k : K} {b : Bool} (h : Holds blank w v)
    (hother : look blank (w.store !b) k = blank k) : look blank (w.store b) k = v k := by
  obtain ⟨c, hc, hblank⟩ := h k
  by_cases hb : c = b
  · rwa [← hb]
  · have hc' : c = !b := by cases b <;> cases c <;> simp_all
    rw [hc', Bool.not_not] at hblank
    rw [hblank, ← hother, ← hc', hc]

/-- As long as it stays clean, a program does what it would do with one store. -/
structure Refines (blank : ∀ k, V k) (x : StateM (World V) α) (y : StateM ((k : K) → V k) α) :
    Prop where
  clean : ∀ w, (x w).2.clean → w.clean
  result : ∀ w v, Holds blank w v → (x w).2.clean → (x w).1 = (y v).1
  holds : ∀ w v, Holds blank w v → (x w).2.clean → Holds blank (x w).2 (y v).2

theorem Refines.pure (a : α) :
    Refines (V := V) blank (Pure.pure a : StateM (World V) α) (Pure.pure a) :=
  ⟨fun _ h => h, fun _ _ _ _ => rfl, fun _ _ h _ => h⟩

theorem Refines.bind {x : StateM (World V) α} {y : StateM ((k : K) → V k) α}
    {f : α → StateM (World V) β} {g : α → StateM ((k : K) → V k) β} (hx : Refines blank x y)
    (hf : ∀ a, Refines blank (f a) (g a)) : Refines blank (x >>= f) (y >>= g) := by
  have hclean : ∀ w, ((x >>= f) w).2.clean → (x w).2.clean := fun w h => (hf _).clean _ h
  refine ⟨fun w h => hx.clean w (hclean w h), fun w v hw h => ?_, fun w v hw h => ?_⟩
  · have hres := hx.result w v hw (hclean w h)
    have hholds := hx.holds w v hw (hclean w h)
    exact ((hf _).result _ _ hholds h).trans (by rw [hres]; rfl)
  · have hres := hx.result w v hw (hclean w h)
    have hholds := hx.holds w v hw (hclean w h)
    have := (hf _).holds _ _ hholds h
    rw [hres] at this
    change Holds blank (f (x w).1 (x w).2).2 (g (y v).1 (y v).2).2
    rwa [hres]

end Refine

/-! ### The single accesses -/

section Accesses
variable [DecidableEq K] [∀ k, DecidableEq (V k)] {blank : ∀ k, V k} {env : Nat → Answer}
  {w : World V} {v : (k : K) → V k} {k : K} {stored b : Bool}

omit [DecidableEq K] in
theorem access_clean (h : (w.access blank env k stored).clean) : w.clean ∧
    look blank (w.store !(env w.accesses).available) k = blank k ∧ stored = true := by
  simpa [World.access, and_assoc] using h

omit [∀ k, DecidableEq (V k)] in
theorem look_put (b c : Bool) (k l : K) (x : Option (V k)) :
    look blank ((w.put b k x).store c) l =
      if h : c = b ∧ l = k then h.2 ▸ x.getD (blank k) else look blank (w.store c) l := by
  simp only [look, World.put, Function.update_apply]
  by_cases hc : c = b
  · subst hc
    by_cases hl : l = k
    · subst hl
      simp
    · simp [hl]
  · simp [hc]

omit [∀ k, DecidableEq (V k)] in
/-- A value is put that the other store does not have, whatever was there before. -/
theorem holds_put
    (h : ∀ l, l ≠ k → ∃ c, look blank (w.store c) l = v l ∧ look blank (w.store !c) l = blank l)
    (hother : look blank (w.store !b) k = blank k) (x : Option (V k)) :
    Holds blank (w.put b k x) (Function.update v k (x.getD (blank k))) := by
  intro l
  by_cases hl : l = k
  · subst hl
    refine ⟨b, ?_, ?_⟩
    · simp [look_put]
    · simp [look_put, hother]
  · obtain ⟨c, hc, hblank⟩ := h l hl
    refine ⟨c, ?_, ?_⟩
    · simp [look_put, hl, hc]
    · simp [look_put, hl, hblank]

theorem Refines.read (k : K) :
    Refines blank ((fallback blank env).read k) ((single blank).read k) :=
  ⟨fun _ h => (access_clean h).1, fun _ _ hw h => hw.here (access_clean h).2.1, fun _ _ hw _ => hw⟩

/-- A clean write is one that is not refused. -/
theorem write_eq {x : V k} (h : (write blank env k x w).2.clean) :
    (w.access blank env k true).clean ∧ write blank env k x w =
      (true, (w.access blank env k true).put (env w.accesses).available k (some x)) := by
  rw [write] at h ⊢
  by_cases hrefused : (env w.accesses).available && !(env w.accesses).stores
  · rw [if_pos hrefused] at h
    have := (access_clean h).2.2
    cases hav : (env w.accesses).available <;> cases hst : (env w.accesses).stores <;> simp_all
  · rw [if_neg hrefused] at h ⊢
    have hstored : (!(env w.accesses).available || (env w.accesses).stores) = true := by
      cases hav : (env w.accesses).available <;> cases hst : (env w.accesses).stores <;> simp_all
    rw [hstored] at h ⊢
    exact ⟨h, rfl⟩

theorem Refines.write (k : K) (x : V k) :
    Refines blank ((fallback blank env).write k x) ((single blank).write k x) := by
  refine ⟨fun w h => ?_, fun w v hw h => ?_, fun w v hw h => ?_⟩
  · exact (access_clean (write_eq h).1).1
  · change (Fallback.write blank env k x w).1 = true
    rw [(write_eq h).2]
  · change Holds blank (Fallback.write blank env k x w).2 _
    rw [(write_eq h).2]
    exact holds_put (fun l _ => hw l) (access_clean (write_eq h).1).2.1 (some x)

theorem Refines.remove (k : K) :
    Refines blank ((fallback blank env).remove k) ((single blank).remove k) :=
  ⟨fun w (h : (w.access blank env k true).clean) => (access_clean h).1, fun _ _ _ _ => rfl,
    fun w _ hw (h : (w.access blank env k true).clean) =>
      holds_put (fun l _ => hw l) (access_clean h).2.1 none⟩

variable (blank env) in
/-- What `change` finds, and where it leaves it before it is written. -/
theorem change_eq (f : V k → Option (V k)) (w : World V) :
    ∃ u : World V, change blank env k f w = (match f (look blank
        (w.store (env w.accesses).available) k) with
      | none => ((), w.access blank env k true)
      | some y => ((), (write blank env k y u).2)) ∧
      (u.clean → (w.access blank env k true).clean) ∧
      ∀ c l, l ≠ k → look blank (u.store c) l = look blank (w.store c) l := by
  cases hf : f (look blank (w.store (env w.accesses).available) k) with
  | none => exact ⟨w.access blank env k true, by simp [change, read, hf], id, fun _ _ _ => rfl⟩
  | some y =>
    by_cases hown : !(env w.accesses).available && (w.store false k).isSome
    · refine ⟨(w.access blank env k true).put false k (some y), ?_, id, fun c l hl => ?_⟩
      · simp only [change, read, hf, hown, if_true]
      · simp [look_put, hl, World.access]
    · exact ⟨w.access blank env k true, by simp [change, read, hf, hown], id, fun _ _ _ => rfl⟩

theorem Refines.change (k : K) (f : V k → Option (V k)) :
    Refines blank ((fallback blank env).change k f) ((single blank).change k f) := by
  have hwrite : ∀ w, ((fallback blank env).change k f w).2.clean →
      (w.access blank env k true).clean := by
    intro w h
    obtain ⟨u, hu, hclean, -⟩ := change_eq blank env f w
    change (Fallback.change blank env k f w).2.clean at h
    rw [hu] at h
    cases hf : f (look blank (w.store (env w.accesses).available) k) with
    | none => rwa [hf] at h
    | some y =>
      rw [hf] at h
      exact hclean (access_clean (write_eq h).1).1
  refine ⟨fun w h => (access_clean (hwrite w h)).1, fun _ _ _ _ => ?_, fun w v hw h => ?_⟩
  · rfl
  · have hhere := hw.here (access_clean (hwrite w h)).2.1
    obtain ⟨u, hu, -, hsame⟩ := change_eq blank env f w
    change Holds blank (Fallback.change blank env k f w).2 _
    change (Fallback.change blank env k f w).2.clean at h
    rw [hu, hhere] at h ⊢
    simp only [single]
    cases hf : f (v k) with
    | none =>
      rw [Option.getD_none, Function.update_eq_self]
      exact hw
    | some y =>
      rw [hf] at h
      simp only at h ⊢
      rw [(write_eq h).2]
      refine holds_put (fun l hl => ?_) (access_clean (write_eq h).1).2.1 (some y)
      obtain ⟨c, hc, hblank⟩ := hw l
      exact ⟨c, (hsame c l hl).trans hc, (hsame _ l hl).trans hblank⟩

end Accesses

end Mdock.Lib.Fallback
