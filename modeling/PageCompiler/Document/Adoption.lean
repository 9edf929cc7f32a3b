import PageCompiler.Document.Builder

/-!
# Misnested formatting

When a formatting element is closed while blocks that started inside it are still open, the blocks are moved
out of it and the formatting is given to them anew.
-/

namespace PageCompiler.Document

/-- Where the new formatting goes in the list: in place of the old, or right after another entry. -/
inductive Bookmark where
  | replace
  | after (n : Nat)

/-- The elements between the block and the formatting element, from the block on: each is copied or given
up, and the chain of copies is hung into each other. The result is the outermost of the chain. -/
def rechain (block : Nat) (counter last : Nat) (bookmark : Bookmark) : List Nat → Build (Nat × Bookmark)
  | [] => return (last, bookmark)
  | n :: rest => do
    match (← get).formats.find? (·.isFor n) with
    | some (.element _ tag) =>
      if 3 < counter then
        modify fun b => { b with formats := b.formats.filter (!·.isFor n) }
        removeFromStack n
        rechain block (counter + 1) last bookmark rest
      else
        let copy ← createElement .html tag.name (plainAttributes tag.attributes)
        modify fun b => { b with
          stack := b.stack.map fun m => if m = n then copy else m
          formats := b.formats.map fun f => if f.isFor n then .element copy tag else f }
        let bookmark := if last = block then .after copy else bookmark
        putAt (.lastChild copy) last
        rechain block (counter + 1) copy bookmark rest
    | _ =>
      removeFromStack n
      rechain block (counter + 1) last bookmark rest

def placeFormat (old : Nat) (entry : Format) (bookmark : Bookmark) (formats : List Format) : List Format :=
  match bookmark with
  | .replace => formats.map fun f => if f.isFor old then entry else f
  | .after n =>
    let placed := formats.flatMap fun f => if f.isFor n then [entry, f] else [f]
    placed.filter (!·.isFor old)

/-- Closes a formatting element by name, at most `rounds` times. -/
def adoptRounds (name : String) : Nat → Build Unit
  | 0 => return
  | rounds + 1 => do
    let b ← get
    let named (f : Format) : Bool := match f with
      | .element _ tag => tag.name == name
      | .marker => false
    match (recentFormats b.formats).find? named with
    | some (.element n tag) =>
      if !b.stack.contains n then
        modify fun b => { b with formats := b.formats.filter (!·.isFor n) }
      else if !(← findInScope isScope (fun m => return m == n) b.stack) then return
      else
        let above := b.stack.takeWhile (· != n)
        let below := (b.stack.drop above.length).drop 1
        let blocks ← above.filterM (isOneOf specialNames)
        match blocks.getLast? with
        | none => modify fun b => { b with stack := below, formats := b.formats.filter (!·.isFor n) }
        | some block =>
          let between := (above.dropWhile (· != block)).drop 1
          let (last, bookmark) ← rechain block 1 block .replace between
          modify fun b => { b with nodes := b.nodes.detach last }
          putAt (← placeFor below.head?) last
          let copy ← createElement .html tag.name (plainAttributes tag.attributes)
          modify fun b => { b with nodes := (b.nodes.moveChildren block copy).append block copy }
          modify fun b => { b with
            formats := placeFormat n (.element copy tag) bookmark b.formats
            stack := (b.stack.filter (· != n)).flatMap fun m => if m = block then [copy, m] else [m] }
          adoptRounds name rounds
    | _ => closeAny name

def adopt (name : String) : Build Unit := do
  let current ← currentNode
  if (← currentIs [name]) && !((← get).formats.any (·.isFor current)) then pop
  else adoptRounds name 8

def closeOpenLink : Build Unit := do
  let named (f : Format) : Bool := match f with
    | .element _ tag => tag.name == "a"
    | .marker => false
  match (recentFormats (← get).formats).find? named with
  | some (.element n _) =>
    adopt "a"
    modify fun b => { b with formats := b.formats.filter (!·.isFor n) }
    removeFromStack n
  | _ => return

end PageCompiler.Document
