import PageCompiler.Emit.Bundle
import PageCompiler.Project.Digest

/-!
# Outputs kept for later

The outputs of earlier compilations by file. An output is used again for the same source and options.
-/

namespace PageCompiler.Project

/-- An output and the digest of what it was made from. -/
structure CacheEntry where
  hash : String
  output : Emit.Output
deriving DecidableEq, Repr

abbrev Cache := Ordered CacheEntry

/-- The digest of everything that an output depends on, layouts and components apart. -/
def hashOf (source file : String) (options : Options) : String :=
  let bytes (s : String) : List UInt8 := s.toUTF8.toList
  digest (bytes file ++ 0 :: bytes options.fingerprint ++ 0 :: bytes source)

namespace Cache

def output? (c : Cache) (file source : String) (options : Options) : Option Emit.Output := do
  let entry ← c.get? file
  guard (entry.hash == hashOf source file options)
  return entry.output

def store (c : Cache) (file source : String) (options : Options) (output : Emit.Output) : Cache :=
  c.insert file { hash := hashOf source file options, output }

end Cache

end PageCompiler.Project
