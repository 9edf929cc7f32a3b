import PageCompiler.Compile
import PageCompiler.Project.Cache
import PageCompiler.Project.Discovery

/-!
# Compilers of projects

A compiler works on the files of a project with fixed options. It keeps the components that it found and the
outputs that it made until it is told that the files they come from have changed.
-/

namespace PageCompiler.Project

/-- A compiler and what it keeps. -/
structure Compiler where
  options : Options := {}
  /-- The components found so far, by the parts of the path of their directory. -/
  found : List (List String × Catalog) := []
  cache : Cache := []
deriving Repr

/-- Something that a compiler does. What it keeps, it keeps also when it stops at a fault. -/
abbrev Working := ExceptT Diagnostic (StateM Compiler)

namespace Compiler

/-- The components below a directory, as they were when they were first looked for. -/
def catalog (files : Entry) (dir : Option String) : Working Catalog := do
  match dir with
  | none => return {}
  | some dir =>
    let key := Path.components dir
    match (← get).found.lookup key with
    | some catalog => return catalog
    | none =>
      let catalog ← discover files dir
      modify fun c => { c with found := (key, catalog) :: c.found }
      return catalog

/-- Compiles a page, or gives the output that was made from the same source. -/
def compile (files : Entry) (source file : String) : Working Emit.Output := do
  let c ← get
  match c.cache.output? file source c.options with
  | some output => return output
  | none =>
    let layouts ← catalog files c.options.layoutsDir
    let components ← catalog files c.options.componentsDir
    let output ← PageCompiler.compile source file c.options { layouts, components }
    modify fun c => { c with cache := c.cache.store file source c.options output }
    return output

def compileFile (files : Entry) (path : String) : Working Emit.Output := do
  match files.readText path with
  | .error cause => throw { fault := .unreadableSource cause, file := path }
  | .ok source => compile files source path

/-- Compiles several files; a fault of one does not touch the others. -/
def compileMany (files : Entry) (paths : List String) : StateM Compiler (List (String × Compiled Emit.Output)) :=
  paths.mapM fun path => do return (path, ← (compileFile files path).run)

def pagesDir : Working String := do
  match (← get).options.pagesDir with
  | some dir => return dir
  | none => throw { fault := .noPagesDirectory, file := "<options>" }

def compilePages (files : Entry) : Working (List (String × Compiled Emit.Output)) := do
  let found ← findFiles files (← pagesDir)
  compileMany files (found.map (·.path))

def routes (files : Entry) : Working (List Route) := do
  routesIn files (← pagesDir)

def sharedDirs (c : Compiler) : List String :=
  c.options.componentsDir.toList ++ c.options.layoutsDir.toList

/-- The compiler after the change of a file. The change of a component or layout can be seen in any page. -/
def invalidate (c : Compiler) (path : String) : Compiler :=
  match c.sharedDirs.filter fun dir => Path.isWithin path dir with
  | [] => { c with cache := c.cache.erase path }
  | dirs =>
    let keys := dirs.map Path.components
    { c with found := c.found.filter fun (key, _) => !keys.contains key, cache := [] }

def invalidateAll (c : Compiler) : Compiler :=
  { c with found := [], cache := [] }

def readOptions (files : Entry) (path : String) : Compiled Options := do
  match files.readText path with
  | .error cause => throw { fault := .unreadableOptions cause, file := path }
  | .ok text => Options.read text

end Compiler

end PageCompiler.Project
