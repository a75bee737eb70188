import Mdock.Store.Slugs
import Mdock.Vault.Apart

/-! The vaults of a store, each in the directory of its own number, side by side below the
root of the vault service. -/
namespace Mdock.Store
open Mdock.Go Mdock.Lib Mdock.Vault

theorem vaultPath_inj {a b : Int} (h : vaultPath a = vaultPath b) : a = b :=
  sprintInt_inj (List.append_cancel_left h)

theorem names_vaultPath (id : Int) : names (vaultPath id) = [vaultPath id] := by
  have hname := isName_vaultPath id
  rw [names, if_neg hname.2.1, split_of_not_mem hname.2.2.2]

/-- The directories of all vaults there can be. -/
def vaultSite (s : Vault.Service) (hs : ∀ n ∈ s.root, Plain n) : Site s Int where
  path := vaultPath
  place id := s.root ++ [vaultPath id]
  place_eq id := by
    rw [Vault.Service.vaultRoot, safeRelPath_vaultPath]
    exact congrArg (fun ns => Except.ok (s.root ++ ns)) (names_vaultPath id)
  plain id a ha := by
    rcases List.mem_append.mp ha with ha | ha
    · exact hs a ha
    · rw [List.mem_singleton.mp ha]
      exact plain_of_isName (isName_vaultPath id)
  apart h := by
    have he := ((List.prefix_append_right_inj s.root).mp h).eq_of_length rfl
    exact vaultPath_inj (List.cons.inj he).1

section Runs
variable {s : Vault.Service} {hs : ∀ n ∈ s.root, Plain n} {t t' : Tree}

/-- Nothing at all. -/
def bare : Tree := Keyed.empty

theorem bare_open : (vaultSite noteService (by decide +kernel)).Open bare := by
  have hnone : ∀ l, bare.node l = if l = [] then some .dir else none := fun _ => rfl
  refine ⟨Tree.rooted_of_node fun l n hs => ?_, fun l target hx => ?_, fun id p _ => ?_⟩
  · rw [hnone, if_neg (by simp)] at hs
    cases hs
  · rw [hnone] at hx
    split at hx <;> cases hx
  · rw [Tree.Passable, hnone]
    split
    · exact .inr rfl
    · exact .inl rfl

/-- A note is written in each of two vaults, and the second vault is emptied. -/
def twoVaults : List (Int × Call) :=
  [(1, .writeFile (utf8 "a.md") (utf8 "x")), (2, .writeFile (utf8 "a.md") (utf8 "y")),
    (2, .delete (utf8 ".")), (1, .readFile (utf8 "a.md"))]

/-- In every run of calls on the vaults each vault answers, and ends up, as a shelf of folders
and files that nothing but its own calls ever touched. -/
theorem vaults_apart (h : (vaultSite s hs).Open t) (calls : List (Int × Call)) (id : Int) :
    let place := s.root ++ [vaultPath id]
    let run := serve (vaultSite s hs).step t calls
    let alone := serve Shelf.serve (t.shelf h.rooted place) (only id calls)
    only id run.1 = alone.1 ∧
      ∃ h' : (vaultSite s hs).Open run.2, run.2.shelf h'.rooted place = alone.2 :=
  Site.serves_apart h calls id

theorem vaults_apart_two :
    let place := noteService.root ++ [vaultPath 1]
    let run := serve (vaultSite noteService (by decide +kernel)).step bare twoVaults
    let alone := serve Shelf.serve (bare.shelf bare_open.rooted place) (only 1 twoVaults)
    only 1 run.1 = [.done (.ok ()), .content (.ok (utf8 "x"))] ∧ only 1 run.1 = alone.1 :=
  ⟨by decide +kernel, (vaults_apart bare_open twoVaults 1).1⟩

theorem entry_inj {x y : Option Node} (hx : ∀ target, x ≠ some (.link target))
    (hy : ∀ target, y ≠ some (.link target)) (h : x.bind Node.entry = y.bind Node.entry) :
    x = y := by
  cases x with
  | none =>
    cases y with
    | none => rfl
    | some y =>
      cases y with
      | link target => exact absurd rfl (hy target)
      | file data => cases h
      | dir => cases h
  | some x =>
    cases x with
    | link target => exact absurd rfl (hx target)
    | file data =>
      rcases y with _ | y
      · cases h
      · exact congrArg some (Node.entry_file.mp h.symm).symm
    | dir =>
      rcases y with _ | y
      · cases h
      · exact congrArg some (Node.entry_folder.mp h.symm).symm

theorem shelf_eq_iff (ht : t.Rooted) (ht' : t'.Rooted) (hl : t.LinkFree) (hl' : t'.LinkFree)
    (r : Loc) : t.shelf ht r = t'.shelf ht' r ↔
      ∀ q, q ≠ [] → t.node (r ++ q) = t'.node (r ++ q) := by
  constructor
  · intro he q hq
    have h := congrArg (fun F => F.entry q) he
    simp only [Tree.shelf, if_neg hq] at h
    exact entry_inj (hl _) (hl' _) h
  · intro h
    ext1
    funext q
    by_cases hq : q = []
    · rw [hq, (t.shelf ht r).root, (t'.shelf ht' r).root]
    · simp only [Tree.shelf, if_neg hq, h q hq]

/-- What is done to other vaults, and what is in them, is not seen in a vault. -/
theorem vaults_blind (h : (vaultSite s hs).Open t) (h' : (vaultSite s hs).Open t') {id : Int}
    (hsame : ∀ q, q ≠ [] → t.node (s.root ++ [vaultPath id] ++ q) =
      t'.node (s.root ++ [vaultPath id] ++ q))
    {calls calls' : List (Int × Call)} (hcalls : only id calls = only id calls') :
    let run := serve (vaultSite s hs).step t calls
    let run' := serve (vaultSite s hs).step t' calls'
    only id run.1 = only id run'.1 ∧
      ∀ q, q ≠ [] → run.2.node (s.root ++ [vaultPath id] ++ q) =
        run'.2.node (s.root ++ [vaultPath id] ++ q) := by
  obtain ⟨ha, hopen, hend⟩ := Site.serves_apart h calls id
  obtain ⟨ha', hopen', hend'⟩ := Site.serves_apart h' calls' id
  have hstart := (shelf_eq_iff h.rooted h'.rooted h.linkFree h'.linkFree _).mpr hsame
  have hplace : (vaultSite s hs).place id = s.root ++ [vaultPath id] := rfl
  rw [hplace, hstart, hcalls] at ha hend
  exact ⟨ha.trans ha'.symm, (shelf_eq_iff hopen.rooted hopen'.rooted hopen.linkFree
    hopen'.linkFree _).mp (hend.trans hend'.symm)⟩

theorem vaults_blind_two : only 1 twoVaults ≠ twoVaults.map Prod.snd ∧
    only 1 (serve (vaultSite noteService (by decide +kernel)).step bare twoVaults).1 =
      only 1 (serve (vaultSite noteService (by decide +kernel)).step bare
        ((only 1 twoVaults).map (Prod.mk 1))).1 :=
  ⟨by decide +kernel, by
    have hsame := vaults_blind bare_open bare_open (fun _ _ => rfl)
      (show only 1 twoVaults = only 1 ((only 1 twoVaults).map (Prod.mk 1)) by decide +kernel)
    exact hsame.1⟩

end Runs
end Mdock.Store
