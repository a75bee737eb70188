import Mathlib.Logic.Function.Basic
import Mathlib.Order.Lattice

/-! Leases on one resource. Owners are promised the resource until some time, and one
record says who has it. The record keeps the promises apart as long as each change of it
respects the promise it replaces. -/
namespace Mdock.Lib
variable {ω τ : Type*} [LinearOrder τ] {granted granted' : ω → Option τ}
  {record : Option (ω × τ)} {now : τ} {o : ω} {e : τ}

/-- Every promise that has not run out is covered by the record. -/
def Backed (granted : ω → Option τ) (record : Option (ω × τ)) (now : τ) : Prop :=
  ∀ o e, granted o = some e → e ≤ now ∨ ∃ e', record = some (o, e') ∧ e ≤ e'

def Exclusive (granted : ω → Option τ) (now : τ) : Prop :=
  ∀ o e o' e', granted o = some e → granted o' = some e' → now < e → now < e' → o = o'

theorem Backed.exclusive (h : Backed granted record now) : Exclusive granted now := by
  intro o e o' e' ho ho' hlt hlt'
  obtain ⟨r, hr, -⟩ := (h o e ho).resolve_left (not_le_of_gt hlt)
  obtain ⟨r', hr', -⟩ := (h o' e' ho').resolve_left (not_le_of_gt hlt')
  rw [hr] at hr'
  exact congrArg Prod.fst (Option.some.inj hr')

theorem Backed.later (h : Backed granted record now) {now' : τ} (hle : now ≤ now') :
    Backed granted record now' := fun o e ho => (h o e ho).imp_left fun he => le_trans he hle

theorem Backed.fewer (h : Backed granted record now)
    (hsub : ∀ o e, granted' o = some e → granted o = some e) : Backed granted' record now :=
  fun o e ho => h o e (hsub o e ho)

/-- The record may be dropped once it has run out. -/
theorem Backed.expire (h : Backed granted record now) {record' : Option (ω × τ)}
    (hkeep : ∀ o e, record = some (o, e) → e ≤ now ∨ record' = some (o, e)) :
    Backed granted record' now := by
  intro o e ho
  rcases h o e ho with he | ⟨e', hr, he⟩
  · exact .inl he
  · exact (hkeep o e' hr).imp (fun h => le_trans he h) fun h => ⟨e', h, he⟩

/-- An owner that gives the resource up loses its promise and, if it is its own, the record. -/
theorem Backed.giveUp (h : Backed granted record now) {record' : Option (ω × τ)}
    (hsub : ∀ o' e, granted' o' = some e → o' ≠ o ∧ granted o' = some e)
    (hkeep : ∀ o' e, o' ≠ o → record = some (o', e) → record' = some (o', e)) :
    Backed granted' record' now := by
  intro o' e ho'
  obtain ⟨hne, hg⟩ := hsub o' e ho'
  rcases h o' e hg with he | ⟨e', hr, he⟩
  · exact .inl he
  · exact .inr ⟨e', hkeep o' e' hne hr, he⟩

/-- The record may move to any time its owner was not promised more than. -/
theorem Backed.renew (h : Backed granted record now) {e' : τ} (hr : record = some (o, e'))
    (hle : ∀ p, granted o = some p → p ≤ now ∨ p ≤ e) : Backed granted (some (o, e)) now := by
  intro o' p ho'
  rcases h o' p ho' with hp | ⟨e'', hr', -⟩
  · exact .inl hp
  · rw [hr] at hr'
    obtain ⟨rfl, -⟩ := Prod.mk.injEq .. ▸ Option.some.inj hr'
    exact (hle p ho').imp_right fun hp => ⟨e, rfl, hp⟩

/-- Where the record has run out or is the owner's own, no other owner holds a promise. -/
theorem Backed.free (h : Backed granted record now)
    (hfree : ∀ o' e', record = some (o', e') → o' = o ∨ e' ≤ now) {o' : ω} (hne : o' ≠ o)
    {p : τ} (hp : granted o' = some p) : p ≤ now := by
  rcases h o' p hp with hp | ⟨e', hr, hp⟩
  · exact hp
  · exact le_trans hp ((hfree o' e' hr).resolve_left hne)

/-- A new promise may replace a record that has run out or is the owner's own. -/
theorem Backed.grant [DecidableEq ω] (h : Backed granted record now)
    (hfree : ∀ o' e', record = some (o', e') → o' = o ∨ e' ≤ now) :
    Backed (Function.update granted o (some e)) (some (o, e)) now := by
  intro o' e' ho'
  by_cases hne : o' = o
  · subst hne
    rw [Function.update_self] at ho'
    exact .inr ⟨e, rfl, le_of_eq (Option.some.inj ho').symm⟩
  · rw [Function.update_of_ne hne] at ho'
    exact .inl (h.free hfree hne ho')

end Mdock.Lib
