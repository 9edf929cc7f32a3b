import PageCompiler.Text.Range

/-!
# Lower case

The lower case of a text, for all scripts. A capital sigma at the end of a word becomes the final form of
the letter, and a capital I with a dot becomes an i followed by a combining dot.
-/

namespace PageCompiler.Text

/-- Runs of capitals outside ASCII: the distance of the first from the end of the run before, the distance of
the last from the first, the distance between two of them, and that of their lower case. -/
def capitalSteps : List (Nat × Nat × Nat × Int) :=
  [(192, 22, 1, 32), (2, 6, 1, 32), (34, 46, 2, 1), (4, 4, 2, 1), (3, 14, 2, 1), (3, 44, 2, 1),
   (2, 0, 1, -121), (1, 4, 2, 1), (4, 0, 1, 210), (1, 2, 2, 1), (2, 0, 1, 206), (1, 0, 1, 1), (2, 1, 1, 205),
   (1, 0, 1, 1), (3, 0, 1, 79), (1, 0, 1, 202), (1, 0, 1, 203), (1, 0, 1, 1), (2, 0, 1, 205), (1, 0, 1, 207),
   (2, 0, 1, 211), (1, 0, 1, 209), (1, 0, 1, 1), (4, 0, 1, 211), (1, 0, 1, 213), (2, 0, 1, 214), (1, 4, 2, 1),
   (2, 0, 1, 218), (1, 0, 1, 1), (2, 0, 1, 218), (3, 0, 1, 1), (2, 0, 1, 218), (1, 0, 1, 1), (2, 1, 1, 217),
   (1, 2, 2, 1), (2, 0, 1, 219), (1, 0, 1, 1), (4, 0, 1, 1), (8, 0, 1, 2), (1, 0, 1, 1), (2, 0, 1, 2),
   (1, 0, 1, 1), (2, 0, 1, 2), (1, 16, 2, 1), (3, 16, 2, 1), (3, 0, 1, 2), (1, 2, 2, 1), (2, 0, 1, -97),
   (1, 0, 1, -56), (1, 38, 2, 1), (2, 0, 1, -130), (2, 16, 2, 1), (8, 0, 1, 10795), (1, 0, 1, 1),
   (2, 0, 1, -163), (1, 0, 1, 10792), (3, 0, 1, 1), (2, 0, 1, -195), (1, 0, 1, 69), (1, 0, 1, 71),
   (1, 8, 2, 1), (290, 2, 2, 1), (4, 0, 1, 1), (9, 0, 1, 116), (7, 0, 1, 38), (2, 2, 1, 37), (2, 0, 1, 64),
   (2, 1, 1, 63), (2, 16, 1, 32), (2, 8, 1, 32), (36, 0, 1, 8), (9, 22, 2, 1), (6, 0, 1, -60), (3, 0, 1, 1),
   (2, 0, 1, -7), (1, 0, 1, 1), (3, 2, 1, -130), (1, 15, 1, 80), (1, 31, 1, 32), (49, 32, 2, 1),
   (10, 52, 2, 1), (2, 0, 1, 15), (1, 12, 2, 1), (3, 94, 2, 1), (3, 37, 1, 48), (2890, 37, 1, 7264),
   (2, 0, 1, 7264), (6, 0, 1, 7264), (723, 79, 1, 38864), (1, 5, 1, 8), (2203, 42, 1, -3008),
   (3, 2, 1, -3008), (321, 148, 2, 1), (10, 0, 1, -7615), (2, 94, 2, 1), (10, 7, 1, -8), (9, 5, 1, -8),
   (11, 7, 1, -8), (9, 7, 1, -8), (9, 5, 1, -8), (12, 6, 2, -8), (9, 7, 1, -8), (25, 7, 1, -8), (9, 7, 1, -8),
   (9, 7, 1, -8), (9, 1, 1, -8), (1, 1, 1, -74), (1, 0, 1, -9), (12, 3, 1, -86), (1, 0, 1, -9),
   (12, 1, 1, -8), (1, 1, 1, -100), (13, 1, 1, -8), (1, 1, 1, -112), (1, 0, 1, -7), (12, 1, 1, -128),
   (1, 1, 1, -126), (1, 0, 1, -9), (298, 0, 1, -7517), (4, 0, 1, -8383), (1, 0, 1, -8262), (7, 0, 1, 28),
   (46, 15, 1, 16), (20, 0, 1, 1), (819, 25, 1, 26), (1841, 47, 1, 48), (49, 0, 1, 1), (2, 0, 1, -10743),
   (1, 0, 1, -3814), (1, 0, 1, -10727), (3, 4, 2, 1), (2, 0, 1, -10780), (1, 0, 1, -10749), (1, 0, 1, -10783),
   (1, 0, 1, -10782), (2, 0, 1, 1), (3, 0, 1, 1), (9, 1, 1, -10815), (1, 98, 2, 1), (9, 2, 2, 1),
   (5, 0, 1, 1), (31054, 44, 2, 1), (20, 26, 2, 1), (136, 12, 2, 1), (4, 60, 2, 1), (11, 2, 2, 1),
   (2, 0, 1, -35332), (1, 8, 2, 1), (5, 0, 1, 1), (2, 0, 1, -42280), (3, 2, 2, 1), (4, 18, 2, 1),
   (2, 0, 1, -42308), (1, 0, 1, -42319), (1, 0, 1, -42315), (1, 0, 1, -42305), (1, 0, 1, -42308),
   (2, 0, 1, -42258), (1, 0, 1, -42282), (1, 0, 1, -42261), (1, 0, 1, 928), (1, 14, 2, 1), (2, 0, 1, -48),
   (1, 0, 1, -42307), (1, 0, 1, -35384), (1, 2, 2, 1), (7, 0, 1, 1), (6, 2, 2, 1), (29, 0, 1, 1),
   (22316, 25, 1, 32), (1222, 39, 1, 40), (137, 35, 1, 40), (157, 10, 1, 39), (2, 14, 1, 39), (2, 6, 1, 39),
   (2, 1, 1, 39), (1771, 50, 1, 64), (3054, 31, 1, 32), (21889, 31, 1, 32), (31393, 33, 1, 34)]

/-- The runs after `start`: the first and the last of the run, the distance between two of them, and the
lower case of the first. -/
def capitalRunsFrom (start : Nat) : List (Nat × Nat × Nat × Int) → List (Nat × Nat × Nat × Nat)
  | [] => []
  | (gap, length, step, shift) :: steps =>
    let first := start + gap
    (first, first + length, step, (first + shift).toNat) :: capitalRunsFrom (first + length) steps

def capitalRuns : Array (Nat × Nat × Nat × Nat) :=
  (capitalRunsFrom 0 capitalSteps).toArray

def lowerChar (c : Char) : List Char :=
  let n := c.toNat
  if n < 128 then [c.toLower]
  else if n == 0x130 then ['i', Char.ofNat 0x307]
  else match capitalRuns.find? fun (first, last, step, _) =>
      first ≤ n && n ≤ last && (n - first) % step == 0 with
    | some (first, _, _, target) => [Char.ofNat (target + (n - first))]
    | none => [c]

/-- Letters that have a case, outside ASCII. -/
def casedRanges : Array (Nat × Nat) :=
  List.toArray <| rangesFrom 0
    [181, 1, 10, 23, 1, 31, 1, 195, 1, 4, 4, 208, 1, 27, 192, 4, 2, 2, 3, 3, 1, 1, 6, 1, 1, 3, 1, 1, 1, 20, 1,
     83, 1, 139, 8, 166, 1, 38, 9, 41, 2839, 38, 1, 1, 5, 1, 2, 43, 2, 3, 672, 86, 2, 6, 2178, 9, 7, 43, 2, 3,
     64, 44, 63, 13, 1, 34, 101, 278, 2, 6, 2, 38, 2, 6, 2, 8, 1, 1, 1, 1, 1, 1, 1, 31, 2, 53, 1, 7, 1, 1, 3,
     3, 1, 7, 3, 4, 2, 6, 4, 13, 5, 3, 1, 7, 261, 1, 4, 1, 2, 10, 1, 1, 3, 5, 6, 1, 1, 1, 1, 1, 1, 4, 1, 6, 4,
     1, 2, 4, 5, 5, 4, 1, 52, 2, 2683, 124, 2, 103, 6, 4, 3, 2, 12, 38, 1, 1, 5, 1, 30994, 46, 18, 28, 134,
     78, 1, 23, 3, 4, 1, 59, 5, 2, 1, 1, 1, 5, 27, 2, 3, 1, 821, 43, 5, 9, 7, 80, 20288, 7, 12, 5, 1033, 26,
     6, 26, 1189, 80, 96, 36, 4, 36, 116, 11, 1, 15, 1, 7, 1, 2, 1, 11, 1, 15, 1, 7, 1, 2, 1731, 51, 13, 51,
     2989, 64, 21856, 64, 25984, 85, 1, 71, 1, 2, 2, 1, 2, 2, 2, 4, 1, 12, 1, 1, 1, 7, 1, 65, 1, 4, 2, 8, 1,
     7, 1, 28, 1, 4, 1, 5, 1, 1, 3, 7, 1, 340, 2, 25, 1, 25, 1, 31, 1, 25, 1, 31, 1, 25, 1, 31, 1, 25, 1, 31,
     1, 25, 1, 8, 1844, 10, 1, 20, 2529, 68]

def isCased (c : Char) : Bool :=
  if c.toNat < 128 then c.isAlpha else inRanges casedRanges c

/-- Marks that are looked through when the end of a word is sought. -/
def isCaseIgnorable (c : Char) : Bool :=
  c == '\'' || c == '.' || c == ':' || c == '^' || c == '`' || c.toNat == 0xB7 || c.toNat == 0x2019 ||
    (0x300 ≤ c.toNat && c.toNat ≤ 0x36F) || c.toNat == 0xAD || c.toNat == 0xA8 || c.toNat == 0xAF ||
    c.toNat == 0xB4 || c.toNat == 0xB8

/-- Whether the next letter, marks apart, is one with a case. -/
def casedNext (cs : List Char) : Bool :=
  ((cs.dropWhile isCaseIgnorable).head?.map isCased).getD false

/-- The lower case of a text that follows `before`, the characters of which are in reverse order. -/
def lowerFrom (before : List Char) : List Char → List Char
  | [] => []
  | c :: cs =>
    let here :=
      if c.toNat == 0x3A3 then
        if casedNext before && !casedNext cs then [Char.ofNat 0x3C2] else [Char.ofNat 0x3C3]
      else lowerChar c
    here ++ lowerFrom (c :: before) cs

def lower (cs : List Char) : List Char :=
  lowerFrom [] cs

end PageCompiler.Text

namespace PageCompiler

def lowerString (s : String) : String :=
  String.ofList (Text.lower s.toList)

def lowerAscii (s : String) : String :=
  String.ofList (s.toList.map Char.toLower)

end PageCompiler
