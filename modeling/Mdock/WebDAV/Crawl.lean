import Mdock.Go.Text
import Mdock.Store.Places
import Mdock.Vault.Walk
import Mdock.WebDAV.RoundTrip

/-! `PROPFIND` and `GET`, and what a client finds in a vault that asks for nothing but the hrefs
it is given. -/
namespace Mdock.WebDAV
open Mdock.Go Mdock.Lib Mdock.Vault Mdock.Store

/-! ### The methods that read -/

/-- `path.Base`. -/
def base (p : Bytes) : Bytes :=
  if p = [] then dot
  else
    let stem := (p.reverse.dropWhile (· = slash)).reverse
    let last := (stem.reverse.takeWhile (· ≠ slash)).reverse
    if last = [] then [slash] else last

/-- `responseXML`, less size and times. -/
structure ResponseXML where
  href : Bytes
  displayName : Bytes
  isCollection : Bool
  deriving DecidableEq

def makeResponse (slug rel : Bytes) (isDir : Bool) : ResponseXML where
  href := webdavHref slug rel isDir
  displayName := if rel = dot then slug else base (trimSuffix rel [slash])
  isCollection := isDir

inductive ReadReply
  | multistatus (responses : List ResponseXML)
  | content (data : Bytes)
  | error (status : Nat) (text : String)
  deriving DecidableEq

section Methods
variable (s : Vault.Service) (vault : VaultRow) (rel : Bytes) (t : Tree)

def propfind (depthHeader : Bytes) : ReadReply :=
  let depth := if depthHeader = [] then utf8 "1" else depthHeader
  if equalFold depth (utf8 "infinity") then
    .error 403 "depth infinity is not supported; configure Remotely Save to use depth 1"
  else
    match s.stat t vault.path rel with
    | .error _ => .error 404 "404 page not found"
    | .ok info =>
      let response := makeResponse vault.slug info.path info.isDir
      if info.isDir ∧ depth ≠ utf8 "0" then
        match s.list t vault.path rel with
        | .error _ => .error 500 "list directory"
        | .ok entries => .multistatus
            (response :: entries.map fun entry => makeResponse vault.slug entry.path entry.isDir)
      else .multistatus [response]

def get : ReadReply :=
  match s.stat t vault.path rel with
  | .error _ => .error 404 "not found"
  | .ok info =>
    if info.isDir then .error 404 "not found"
    else
      match s.readFile t vault.path rel with
      | .error _ => .error 404 "not found"
      | .ok data => .content data

end Methods

inductive ReadMethod
  | propfind (depth : Bytes)
  | get

section Client
variable (s : Vault.Service) (vaultFor : Bytes → Option VaultRow) (t : Tree)

/-- `ServeHTTP` for a method that reads. -/
def serveRead (method : ReadMethod) (path : Bytes) : ReadReply :=
  match parsePath path with
  | .error _ => .error 400 "bad webdav path"
  | .ok (slug, rel) =>
    match vaultFor slug with
    | none => .error 404 "404 page not found"
    | some vault =>
      match method with
      | .propfind depth => propfind s vault rel t depth
      | .get => get s vault rel t

/-- A request for an href: `net/http` decodes it, the router strips it. -/
def request (method : ReadMethod) (href : Bytes) : Option ReadReply :=
  ((unescape href).bind stripPrefix).map (serveRead s vaultFor t method)

/-- All that a client finds at and below an href in `n` levels: the collections, and the files
with what it gets for them. -/
def crawl : Nat → Bytes → List (ResponseXML × Option Bytes)
  | 0, _ => []
  | n + 1, href =>
    match request s vaultFor t (.propfind (utf8 "1")) href with
    | some (.multistatus (_ :: members)) =>
      members.flatMap fun member =>
        if member.isCollection then (member, none) :: crawl n member.href
        else
          match request s vaultFor t .get member.href with
          | some (.content data) => [(member, some data)]
          | _ => []
    | _ => []

end Client

/-! ### One level -/

/-- The path of an entry, by its names. -/
def relOf (q : List Bytes) : Bytes := if q = [] then dot else join q

theorem relOf_of_ne {q : List Bytes} (h : q ≠ []) : relOf q = join q := if_neg h

/-- Names that a file system has, without a percent sign. -/
def Ordinary (F : Shelf) : Prop :=
  ∀ q, (F.entry q).isSome → ∀ n ∈ q, IsName n ∧ percent ∉ n

theorem percent_join {q : List Bytes} (h : ∀ n ∈ q, percent ∉ n) : percent ∉ join q := by
  induction q with
  | nil => simp [join]
  | cons n q ih =>
    cases q with
    | nil => exact h n (by simp)
    | cons m q =>
      rw [join]
      simp only [List.mem_append, List.mem_cons, not_or]
      exact ⟨h n (by simp), by decide, ih fun a ha => h a (List.mem_cons_of_mem n ha)⟩

/-- An entry is shown by its last name. -/
theorem base_join {q : List Bytes} {n : Bytes} (hn : IsName n) :
    base (trimSuffix (join (q ++ [n])) [slash]) = n := by
  obtain ⟨stem, hstem, hjoin⟩ : ∃ stem : Bytes, (stem = [] ∨ stem.getLast? = some slash) ∧
      join (q ++ [n]) = stem ++ n := by
    by_cases h : q = []
    · exact ⟨[], .inl rfl, by rw [h]; rfl⟩
    · exact ⟨join q ++ [slash], .inr (by simp), by rw [join_append h (by simp)]; simp [join]⟩
  have hne : stem ++ n ≠ [] := by simp [hn.1]
  have hlast : ∀ c, n.reverse.head? = some c → c ≠ slash := by
    rintro c hc rfl
    exact hn.2.2.2 (List.mem_reverse.mp (List.mem_of_mem_head? hc))
  obtain ⟨c, rest, hrest⟩ := List.exists_cons_of_ne_nil (List.reverse_ne_nil_iff.mpr hn.1)
  have hc : c ≠ slash := hlast c (by rw [hrest]; rfl)
  have hrev : (stem ++ n).reverse = c :: (rest ++ stem.reverse) := by
    rw [List.reverse_append, hrest, List.cons_append]
  have htrim : trimSuffix (stem ++ n) [slash] = stem ++ n := by
    refine if_neg fun h => hc ?_
    obtain ⟨t, ht⟩ := List.isSuffixOf_iff_suffix.mp h
    rw [← ht, List.reverse_append] at hrev
    exact (List.cons.inj hrev).1.symm
  have htake : (c :: (rest ++ stem.reverse)).takeWhile (· ≠ slash) = n.reverse := by
    rw [← List.cons_append, ← hrest, List.takeWhile_append_of_pos]
    · rcases hstem with rfl | hs
      · simp
      · obtain ⟨t, rfl⟩ := List.getLast?_eq_some_iff.mp hs
        simp
    · intro a ha
      simp only [ne_eq, decide_eq_true_eq]
      rintro rfl
      exact hn.2.2.2 (List.mem_reverse.mp ha)
  rw [hjoin, htrim, base, if_neg hne, hrev, List.dropWhile_cons_of_neg (by simpa using hc)]
  simp only [List.reverse_reverse, htake, if_neg hn.1]

section Level
variable {s : Vault.Service} {vaultFor : Bytes → Option VaultRow} {t : Tree} {r : Loc} {F : Shelf}
  {vault : VaultRow} {q : List Bytes} {n : Bytes}

theorem cleanRel_relOf (hq : ∀ n ∈ q, IsName n) : CleanRel (relOf q) := by
  by_cases h : q = []
  · exact .inl (if_pos h)
  · exact .inr ⟨q, h, hq, if_neg h⟩

theorem names_relOf (hq : ∀ n ∈ q, IsName n) : names (relOf q) = q := by
  by_cases h : q = []
  · subst h
    exact names_dot
  · rw [relOf_of_ne h, names_join h hq]

theorem lookup_relOf (hslug : IsSlug vault.slug) (hw : ¬ webdav <+: vault.slug)
    (hq : ∀ n ∈ q, IsName n ∧ percent ∉ n) (isDir : Bool) :
    lookup (webdavHref vault.slug (relOf q) isDir) = some (vault.slug, relOf q) := by
  have hclean := cleanRel_relOf fun n hn => (hq n hn).1
  have hbytes : ∀ c ∈ vault.slug, c ≠ slash ∧ c ≠ percent := by
    intro c hc
    rcases hslug.bytes c hc with ha | rfl
    · constructor <;> rintro rfl <;> exact absurd ha (by decide)
    · decide
  have hpercent : percent ∉ relOf q := by
    rw [relOf]
    split
    · decide
    · exact percent_join fun n hn => (hq n hn).2
  rw [lookup_webdavHref hslug.ne_nil hclean, parsePath_reads hslug.ne_nil
    (fun h => (hbytes slash h).1 rfl) (fun h => (hbytes percent h).2 rfl) hclean isDir hw hpercent]
  rfl

/-- A request for the href of an entry is a request for the entry. -/
theorem request_href (hslug : IsSlug vault.slug) (hw : ¬ webdav <+: vault.slug)
    (hvault : vaultFor vault.slug = some vault) (hq : ∀ n ∈ q, IsName n ∧ percent ∉ n)
    (isDir : Bool) (method : ReadMethod) :
    request s vaultFor t method (webdavHref vault.slug (relOf q) isDir) =
      some (match method with
        | .propfind depth => propfind s vault (relOf q) t depth
        | .get => get s vault (relOf q) t) := by
  have h := lookup_relOf hslug hw hq isDir
  obtain ⟨path, hpath, h⟩ := Option.bind_eq_some_iff.mp h
  obtain ⟨stripped, hstripped, h⟩ := Option.bind_eq_some_iff.mp h
  have hparse := toOption_eq_some.mp h
  rw [request, hpath, Option.bind_some, hstripped, Option.map_some, serveRead, hparse]
  simp only [hvault]

theorem resolve_relOf (hs : (F.entry q).isSome) (hq : ∀ n ∈ q, IsName n) (hgit : dotGit ∉ q) :
    F.resolve (relOf q) = .ok q := by
  have hclear : F.Clear q.dropLast := by
    intro p hp hne
    refine .inr (F.dir_of_prefix hs (hp.trans (List.dropLast_prefix q)) ?_)
    rintro rfl
    exact hne ((List.dropLast_prefix p).eq_of_length (by
      have := hp.length_le
      have := (List.dropLast_prefix p).length_le
      omega)).symm
  unfold Shelf.resolve
  by_cases h : q = []
  · subst h
    have hdot : safeRelPath (relOf []) = .ok dot := by decide
    rw [hdot]
    simp only [names_dot]
    exact if_pos hclear
  · have hnames := names_join h hq
    rw [relOf_of_ne h, safeRelPath_join h hq hgit]
    exact (if_pos (by rwa [hnames])).trans (congrArg Except.ok hnames)

variable (hv : s.vaultRoot vault.path = .ok r) (hr : ∀ a ∈ r, Plain a) (h : Left t r t F)
include hv hr h

theorem stat_relOf (hq : ∀ n ∈ q, IsName n) (hgit : dotGit ∉ q) {e : Item Bytes}
    (he : F.entry q = some e) :
    s.stat t vault.path (relOf q) = .ok ⟨relOf q, decide (e = .folder)⟩ := by
  have hans := (serve_shelf hv hr h (.stat (relOf q))).1
  have hres := resolve_relOf (by rw [he]; rfl) hq hgit
  simp only [Service.serve, Call.answer, Shelf.serve, hres, Except.bind, Shelf.info, he] at hans
  exact Answer.info.inj hans

theorem readFile_relOf (hq : ∀ n ∈ q, IsName n) (hgit : dotGit ∉ q) {data : Bytes}
    (he : F.entry q = some (.file data)) : s.readFile t vault.path (relOf q) = .ok data := by
  have hans := (serve_shelf hv hr h (.readFile (relOf q))).1
  have hres := resolve_relOf (by rw [he]; rfl) hq hgit
  simp only [Service.serve, Call.answer, Shelf.serve, hres, Except.bind, Shelf.content, he] at hans
  exact Answer.content.inj hans

theorem list_relOf (hq : ∀ n ∈ q, IsName n) (hgit : dotGit ∉ q) (he : F.entry q = some .folder) :
    s.list t vault.path (relOf q) = .ok (((F.namesIn q).filter (· ≠ dotGit)).map fun n =>
      ⟨n, join (q ++ [n]), decide (F.entry (q ++ [n]) = some .folder)⟩) := by
  have hans := (serve_shelf hv hr h (.list (relOf q))).1
  have hres := resolve_relOf (by rw [he]; rfl) hq hgit
  simp only [Service.serve, Call.answer, Shelf.serve, hres, Except.bind, Shelf.entries, he] at hans
  exact Answer.entries.inj hans

variable (hslug : IsSlug vault.slug) (hw : ¬ webdav <+: vault.slug)
  (hvault : vaultFor vault.slug = some vault)
include hslug hw hvault

theorem request_folder (hq : ∀ n ∈ q, IsName n ∧ percent ∉ n) (hgit : dotGit ∉ q)
    (he : F.entry q = some .folder) :
    request s vaultFor t (.propfind (utf8 "1")) (webdavHref vault.slug (relOf q) true) =
      some (.multistatus (makeResponse vault.slug (relOf q) true ::
        ((F.namesIn q).filter (· ≠ dotGit)).map fun n =>
          makeResponse vault.slug (join (q ++ [n])) (F.entry (q ++ [n]) = some .folder))) := by
  have hnames : ∀ n ∈ q, IsName n := fun n hn => (hq n hn).1
  have hstat := stat_relOf hv hr h hnames hgit he
  have hdepth : ¬ equalFold (utf8 "1") (utf8 "infinity") := by decide
  rw [request_href hslug hw hvault hq]
  simp only [propfind, if_neg (show utf8 "1" ≠ [] by decide), if_neg hdepth, hstat,
    decide_true, list_relOf hv hr h hnames hgit he, List.map_map]
  exact congrArg some (if_pos ⟨trivial, by decide⟩)

theorem request_file (hq : ∀ n ∈ q, IsName n ∧ percent ∉ n) (hgit : dotGit ∉ q) {data : Bytes}
    (he : F.entry q = some (.file data)) :
    request s vaultFor t .get (webdavHref vault.slug (relOf q) false) = some (.content data) := by
  have hnames : ∀ n ∈ q, IsName n := fun n hn => (hq n hn).1
  have hfile : decide (Item.file data = Item.folder) = false := rfl
  rw [request_href hslug hw hvault hq]
  simp only [get, stat_relOf hv hr h hnames hgit he, hfile,
    readFile_relOf hv hr h hnames hgit he]
  rfl

/-- What a client learns of an entry, with the content it has of a file. -/
def found (slug : Bytes) (q : List Bytes) : Option (Item Bytes) → ResponseXML × Option Bytes
  | some (.file data) => (makeResponse slug (join q) false, some data)
  | _ => (makeResponse slug (join q) true, none)

omit hv hr h hslug hw hvault in
theorem href_found {slug : Bytes} (x : Option (Item Bytes)) : ∃ isDir,
    (found slug q x).1.href = webdavHref slug (join q) isDir := by
  rcases x with - | (data | -)
  · exact ⟨true, rfl⟩
  · exact ⟨false, rfl⟩
  · exact ⟨true, rfl⟩

theorem crawl_eq (hord : Ordinary F) (hq : ∀ n ∈ q, IsName n ∧ percent ∉ n)
    (hgit : dotGit ∉ q) (he : F.entry q = some .folder) (k : ℕ) :
    crawl s vaultFor t k (webdavHref vault.slug (relOf q) true) =
      (F.walk (· ≠ dotGit) k q).map fun p => found vault.slug p (F.entry p) := by
  induction k generalizing q with
  | zero => rfl
  | succ k ih =>
    rw [crawl, request_folder hv hr h hslug hw hvault hq hgit he]
    simp only [List.flatMap_map, Folders.walk, List.map_flatMap]
    refine List.flatMap_congr fun n hn => ?_
    obtain ⟨hn, hne⟩ := List.mem_filter.mp hn
    obtain ⟨u, -, hleft, hshows⟩ := h.dir_of_makes hr
    have hsome := (mem_namesIn hshows hleft.linkFree).mp hn
    have hord' := hord _ hsome
    have hgit' : dotGit ∉ q ++ [n] := by
      rw [List.mem_append, List.mem_singleton, not_or]
      exact ⟨hgit, fun h => of_decide_eq_true hne h.symm⟩
    have hrel : relOf (q ++ [n]) = join (q ++ [n]) := relOf_of_ne (by simp)
    obtain ⟨x, hx⟩ := Option.isSome_iff_exists.mp hsome
    cases x with
    | folder =>
      have hbelow := ih hord' hgit' hx
      rw [hrel] at hbelow
      simp only [hx, decide_true, makeResponse, if_true, List.map_cons, found]
      exact congrArg _ hbelow
    | file data =>
      have hget := request_file hv hr h hslug hw hvault hord' hgit' hx
      rw [hrel] at hget
      have hfile : decide (some (Item.file data) = some Item.folder) = false := rfl
      simp only [hx, hfile, makeResponse, hget, List.map_cons, List.map_nil, found]
      rfl

omit hv hr hslug hw hvault in
theorem entry_cases (hq : q ≠ []) : F.entry q = none ∧ t.node (r ++ q) = none ∨
    F.entry q = some .folder ∧ t.node (r ++ q) = some .dir ∨
    ∃ data, F.entry q = some (.file data) ∧ t.node (r ++ q) = some (.file data) := by
  rw [← h.holds q hq]
  cases hx : t.node (r ++ q) with
  | none => exact .inl ⟨rfl, rfl⟩
  | some x =>
    cases x with
    | file data => exact .inr (.inr ⟨data, rfl, rfl⟩)
    | dir => exact .inr (.inl ⟨rfl, rfl⟩)
    | link target => exact absurd hx (h.linkFree _ target)

omit hv hr hslug hw hvault in
theorem isSome_entry (hq : q ≠ []) : (F.entry q).isSome ↔ (t.node (r ++ q)).isSome := by
  rcases entry_cases h hq with ⟨he, hx⟩ | ⟨he, hx⟩ | ⟨data, he, hx⟩ <;> simp [he, hx]

/-- What a client has of an entry, in the words of the tree. -/
def seen (slug : Bytes) (t : Tree) (r : Loc) (q : List Bytes) (n : Bytes) :
    ResponseXML × Option Bytes :=
  (⟨webdavHref slug (join (q ++ [n])) (t.node (r ++ (q ++ [n])) = some .dir), n,
    t.node (r ++ (q ++ [n])) = some .dir⟩, t.file (r ++ (q ++ [n])))

omit hv hr hslug hw hvault in
theorem found_eq (hn : ∀ a ∈ q ++ [n], IsName a) (hs : (F.entry (q ++ [n])).isSome) :
    found vault.slug (q ++ [n]) (F.entry (q ++ [n])) = seen vault.slug t r q n := by
  have hbase := base_join (q := q) (hn n (by simp))
  have hdot : join (q ++ [n]) ≠ dot := fun he => by
    have hnames := names_join (by simp) hn
    rw [he, names_dot] at hnames
    simp at hnames
  rcases entry_cases h (q := q ++ [n]) (by simp) with ⟨he, hx⟩ | ⟨he, hx⟩ | ⟨data, he, hx⟩
  · rw [he] at hs
    cases hs
  · simp [he, seen, hx, found, makeResponse, hdot, hbase, Tree.file]
  · simp [he, seen, hx, found, makeResponse, hdot, hbase, Tree.file]

theorem crawl_left (hord : Ordinary F) (k : ℕ) :
    let crawled := crawl s vaultFor t k (webdavHref vault.slug dot true)
    (crawled.map fun y => y.1.href).Nodup ∧ ∀ y, y ∈ crawled ↔ ∃ q n, q.length < k ∧
      dotGit ∉ q ++ [n] ∧ (t.node (r ++ (q ++ [n]))).isSome ∧ y = seen vault.slug t r q n := by
  intro crawled
  obtain ⟨u, -, hleft, hshows⟩ := h.dir_of_makes hr
  have hcrawl : crawled = _ := crawl_eq hv hr h hslug hw hvault (q := []) hord (by simp) (by simp)
    F.root k
  have hlist : ∀ p n, n ∈ F.namesIn p ↔ _ := fun p n => mem_namesIn hshows hleft.linkFree
  have hmem : ∀ x, x ∈ F.walk (· ≠ dotGit) k [] ↔ ∃ q n, q.length < k ∧ dotGit ∉ q ++ [n] ∧
      (F.entry (q ++ [n])).isSome ∧ x = q ++ [n] := by
    intro x
    rw [Folders.mem_walk hlist]
    constructor
    · rintro ⟨_, hne, hlen, hlisted, hsome, rfl⟩
      obtain ⟨q, n, rfl⟩ := (List.eq_nil_or_concat' x).resolve_left hne
      refine ⟨q, n, by rwa [List.length_append] at hlen, fun hgit => ?_, hsome, rfl⟩
      simpa using hlisted dotGit hgit
    · rintro ⟨q, n, hlen, hgit, hsome, rfl⟩
      refine ⟨q ++ [n], by simp, by rw [List.length_append]; exact hlen, fun a ha => ?_, hsome, rfl⟩
      rw [decide_eq_true_eq]
      rintro rfl
      exact hgit ha
  have hentry : ∀ x ∈ F.walk (· ≠ dotGit) k [], ∀ a ∈ x, IsName a ∧ percent ∉ a := by
    intro x hx
    obtain ⟨q, n, -, -, hsome, rfl⟩ := hmem x |>.mp hx
    exact hord _ hsome
  rw [hcrawl]
  constructor
  · -- the server tells from the href which entry is meant
    rw [List.map_map]
    refine List.Nodup.map_on (fun x hx y hy hxy => ?_) (Folders.walk_nodup hlist)
    have hlookup : ∀ x ∈ F.walk (· ≠ dotGit) k [],
        lookup (found vault.slug x (F.entry x)).1.href = some (vault.slug, relOf x) := by
      intro x hx
      have hne : x ≠ [] := by
        obtain ⟨q, n, -, -, -, rfl⟩ := (hmem x).mp hx
        simp
      obtain ⟨isDir, href⟩ : ∃ isDir, (found vault.slug x (F.entry x)).1.href =
          webdavHref vault.slug (join x) isDir := href_found (F.entry x)
      rw [href, ← relOf_of_ne hne]
      exact lookup_relOf hslug hw (hentry x hx) isDir
    have hrel : relOf x = relOf y := by
      have := (hlookup x hx).symm.trans ((congrArg lookup hxy).trans (hlookup y hy))
      exact congrArg Prod.snd (Option.some.inj this)
    rw [← names_relOf fun a ha => (hentry x hx a ha).1, hrel,
      names_relOf fun a ha => (hentry y hy a ha).1]
  · intro y
    rw [List.mem_map]
    constructor
    · rintro ⟨x, hx, rfl⟩
      obtain ⟨q, n, hlen, hgit, hsome, rfl⟩ := (hmem x).mp hx
      exact ⟨q, n, hlen, hgit, (isSome_entry h (by simp)).mp hsome,
        found_eq h (fun a ha => (hord _ hsome a ha).1) hsome⟩
    · rintro ⟨q, n, hlen, hgit, hsome, rfl⟩
      have hsome := (isSome_entry h (by simp)).mpr hsome
      exact ⟨_, (hmem _).mpr ⟨q, n, hlen, hgit, hsome, rfl⟩,
        found_eq h (fun a ha => (hord _ hsome a ha).1) hsome⟩

end Level

/-! ### A whole vault -/

section Vaults
variable {s : Vault.Service} {hs : ∀ n ∈ s.root, Plain n} {t : Tree} {vault : VaultRow} {id : Int}
  {vaultFor : Bytes → Option VaultRow}

/-- A vault with a folder, and a note in it. -/
def folderTree : Tree := (serve (vaultSite noteService noteService_plain).step bare
  [(1, .writeFile (utf8 "b c/a.md") (utf8 "x"))]).2

theorem folderTree_open : (vaultSite noteService noteService_plain).Open folderTree :=
  (Site.serves_apart bare_open _ 1).2.1

theorem folderTree_names {l : Loc} (h : (folderTree.node l).isSome) :
    ∀ n ∈ l, IsName n ∧ percent ∉ n := by
  have hrows : ∀ e ∈ folderTree.rows, ∀ n ∈ e.1, IsName n ∧ percent ∉ n := by decide +kernel
  by_cases hl : l = []
  · simp [hl]
  · obtain ⟨x, hx⟩ := Option.isSome_iff_exists.mp h
    exact hrows _ (Tree.mem_of_node hl hx)

end Vaults
end Mdock.WebDAV
