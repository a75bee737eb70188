import Mdock.Go.Url
import Mdock.Store.Slug
import Mdock.Vault.Path

/-! How the WebDAV handler writes paths into hrefs and reads them back. The request path
has been decoded by `net/http` and stripped of `/webdav` by the router before `parsePath`
decodes and strips it again. -/
namespace Mdock.WebDAV
open Mdock.Go Mdock.Vault Mdock.Store

def webdav : Bytes := utf8 "webdav"
def webdavPrefix : Bytes := utf8 "/webdav"

theorem webdavPrefix_eq : webdavPrefix = slash :: webdav := by decide

/-- `http.StripPrefix("/webdav", h)`; `none` is the 404 it answers by itself. -/
def stripPrefix (path : Bytes) : Option Bytes :=
  if webdavPrefix.isPrefixOf path then some (path.drop webdavPrefix.length) else none

inductive ParseErr
  | slugRequired | invalidSlug | escape
  deriving DecidableEq

/-- What `parsePath` cuts up. -/
def trimmed (input : Bytes) : Bytes := trimPrefix (trimPrefix input webdavPrefix) [slash]

def parsePath (input : Bytes) : Except ParseErr (Bytes × Bytes) :=
  if trimmed input = [] then .error .slugRequired
  else
    match unescape (cut slash (trimmed input)).1 with
    | none => .error .invalidSlug
    | some slug =>
      if slug = [] then .error .invalidSlug
      else
        match (cut slash (trimmed input)).2 with
        | none => .ok (slug, dot)
        | some raw =>
          if raw = [] then .ok (slug, dot)
          else
            match unescape raw with
            | none => .error .escape
            | some rel => .ok (slug, if clean rel = [] then dot else clean rel)

def parseDestination (authorityOk : Bytes → Bool) (input : Bytes) :
    Except ParseErr (Bytes × Bytes) :=
  match parseURL authorityOk input with
  | none => parsePath input
  | some path => if path = [] then parsePath input else parsePath path

def webdavHref (slug rel : Bytes) (isDir : Bool) : Bytes :=
  let names :=
    if rel ≠ dot ∧ rel ≠ [] then (split (clean rel)).filter fun part => part ≠ [] ∧ part ≠ dot
    else []
  let href := join ([] :: (webdav :: slug :: names).map pathEscape)
  if isDir ∧ ¬ [slash] <:+ href then href ++ [slash] else href

/-- What a request for an href is about: `net/http` decodes it, the router strips it. -/
def lookup (href : Bytes) : Option (Bytes × Bytes) :=
  (unescape href).bind fun path => (stripPrefix path).bind fun path => (parsePath path).toOption

theorem parsePath_ok {input slug rel : Bytes} (h : parsePath input = .ok (slug, rel)) :
    unescape (cut slash (trimmed input)).1 = some slug ∧ slug ≠ [] ∧
      (rel = dot ∨ ∃ raw q, (cut slash (trimmed input)).2 = some raw ∧ raw ≠ [] ∧
        unescape raw = some q ∧ rel = clean q) := by
  unfold parsePath at h
  split at h
  · cases h
  · split at h
    · cases h
    · rename_i s hs
      split at h
      · cases h
      · rename_i hne
        split at h
        · cases h
          exact ⟨hs, hne, .inl rfl⟩
        · rename_i raw hraw
          split at h
          · cases h
            exact ⟨hs, hne, .inl rfl⟩
          · rename_i hraw'
            split at h
            · cases h
            · rename_i q hq
              cases h
              refine ⟨hs, hne, ?_⟩
              split
              · exact .inl rfl
              · exact .inr ⟨raw, q, hraw, hraw', hq, rfl⟩

end Mdock.WebDAV
