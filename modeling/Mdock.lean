import Mdock.App.Admins
import Mdock.App.Creation
import Mdock.App.Keys
import Mdock.App.LateErrors
import Mdock.App.LockFrame
import Mdock.App.LockedFiles
import Mdock.App.Metrics
import Mdock.App.NoOverwrite
import Mdock.App.Outline
import Mdock.App.Passwords
import Mdock.App.Registration
import Mdock.App.Reindex
import Mdock.App.Restore
import Mdock.App.Transient
import Mdock.Editor.BlockTypes
import Mdock.Editor.Callouts
import Mdock.Editor.Changes
import Mdock.Editor.CodeBlocks
import Mdock.Editor.Embeds
import Mdock.Editor.Fences
import Mdock.Editor.Headings
import Mdock.Editor.Heartbeat
import Mdock.Editor.LivePreview
import Mdock.Editor.Lookup
import Mdock.Editor.LostUpdate
import Mdock.Editor.Marks
import Mdock.Editor.Metadata
import Mdock.Editor.Partition
import Mdock.Editor.Renames
import Mdock.Editor.Selections
import Mdock.Editor.Toggles
import Mdock.Editor.Toolbar
import Mdock.Editor.Widgets
import Mdock.Editor.Wikilinks
import Mdock.Editor.HeadingLinks
import Mdock.Git.Debounce
import Mdock.Git.Exclusion
import Mdock.Git.Lifetimes
import Mdock.Git.Files
import Mdock.Git.History
import Mdock.Git.Journal
import Mdock.Git.Memory
import Mdock.Http.Works
import Mdock.Locks.Expiry
import Mdock.Locks.Race
import Mdock.Locks.Under
import Mdock.Search.Headings
import Mdock.Search.Lists
import Mdock.Security.Guessing
import Mdock.Store.Dump
import Mdock.Store.Search
import Mdock.Store.Slugs
import Mdock.Store.Snapshot
import Mdock.Store.Places
import Mdock.Vault.Writing
import Mdock.Web.Drafts
import Mdock.Web.Import
import Mdock.WebDAV.Crawl
import Mdock.WebDAV.Move
import Mdock.WebDAV.Root
import Mdock.WebDAV.RoundTrip
