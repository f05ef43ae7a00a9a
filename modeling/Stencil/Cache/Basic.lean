import Stencil.Digest.Sha256
import Stencil.Keyed

/-!
# Remembering finished files

A cache remembers, by path, which content a set of rules left in a file.  A file
that still has this content need not be processed by the same rules again.
-/

namespace Stencil

/-- Identifies the content of a file. -/
def contentHash (content : Bytes) : Bytes :=
  Sha256.hexDigest content

namespace Cache

/-- What is remembered about a file. -/
structure Entry where
  /-- Identifies the content the rules left. -/
  hash : Bytes
  /-- Identifies the rules. -/
  digest : Bytes
  /-- When this was recorded, in nanoseconds. -/
  recordedAt : Nat
  deriving DecidableEq

end Cache

/-- What is remembered, and whether all of it is stored. -/
structure Cache where
  /-- The folder it is stored in. -/
  folder : Bytes
  /-- How old an entry may be, in nanoseconds.  There is no limit unless this is
  positive. -/
  maxAge : Int := 0
  entries : Keyed Cache.Entry := []
  /-- Something changed since the entries were stored. -/
  dirty : Bool := false
  deriving DecidableEq

namespace Cache

/-- Whether an entry is too old. -/
def expired (cache : Cache) (now : Nat) (entry : Entry) : Bool :=
  decide (0 < cache.maxAge) && decide (cache.maxAge < (now : Int) - entry.recordedAt)

/-- Whether the content is what the rules left in the file. -/
def fresh (cache : Cache) (now : Nat) (path content digest : Bytes) : Bool :=
  match cache.entries.get? path with
  | none => false
  | some entry =>
      entry.digest == digest && !cache.expired now entry && entry.hash == contentHash content

/-- Remembers the content that the rules left in a file. -/
def record (cache : Cache) (now : Nat) (path content digest : Bytes) : Cache :=
  { cache with
    entries := Keyed.put path ⟨contentHash content, digest, now⟩ cache.entries
    dirty := true }

/-- Forgets a file. -/
def forget (cache : Cache) (path : Bytes) : Cache :=
  if (cache.entries.get? path).isSome then
    { cache with entries := cache.entries.erase path, dirty := true }
  else
    cache

/-- Forgets all files. -/
def clear (cache : Cache) : Cache :=
  { cache with entries := [], dirty := true }

end Cache

end Stencil
