import Mathlib.Data.BitVec

/-!
# The compressed bit vector

`WAHVector` keeps groups of 31 bits. A word of the vector is a literal, which has the bits of one group, or a
fill, which stands for a number of groups that are all zeroes or all ones. The last group may be used in part
only: `rem` has the number of its bits, and is 0 when the last group is complete.

Words are 32-bit words as in the source. A builder is the list of the words pushed so far, the last one first.
-/

namespace Otawa.Elm.WAHVector

abbrev Word :=
  BitVec 32

def FILL : Word :=
  0x80000000#32

def ONES : Word :=
  0x40000000#32

def ALL_ONES : Word :=
  0x7fffffff#32

def ALL_ZEROES : Word :=
  0#32

def isFill (w : Word) : Bool :=
  w &&& FILL != 0#32

def isLite (w : Word) : Bool :=
  !isFill w

def isOnes (w : Word) : Bool :=
  w &&& ONES != 0#32

def isZeroes (w : Word) : Bool :=
  !isOnes w

def fillCount (w : Word) : ℕ :=
  (w &&& ~~~(FILL ||| ONES)).toNat

/-- `mask(n)`, the lower bits. -/
def mask (n : ℕ) : Word :=
  (1#32 <<< n) - 1#32

def fill (size : ℕ) (init : Bool) : Word :=
  FILL ||| (if init then ONES else 0#32) ||| BitVec.ofNat 32 size

/-- `times`, that is `(v << 5) - v`. -/
def times (v : ℕ) : ℕ :=
  v * 32 - v

/-- The division by 31 as a multiplication and a shift. -/
def div (v : ℕ) : ℕ :=
  (2 ^ 32 / 31 + 30) * v / 2 ^ 32

def mod (v : ℕ) : ℤ :=
  v - times (div v)

/-- `1 << mod(index)`. -/
def bitOf (index : ℕ) : Word :=
  1#32 <<< (mod index).toNat

/-- The number of ones of a word. -/
def ones (w : Word) : ℕ :=
  (List.range 32).countP w.getLsbD

/-! ### The class `builder` -/

abbrev Builder :=
  List Word

def pushRaw (b : Builder) (w : Word) : Builder :=
  w :: b

def pushFill (b : Builder) (w : Word) : Builder :=
  match b with
  | [] => pushRaw [] w
  | last :: rest =>
    if w &&& (FILL ||| ONES) = last &&& (FILL ||| ONES) then
      (last + BitVec.ofNat 32 (fillCount w)) :: rest
    else pushRaw b w

def pushLite (b : Builder) (w : Word) : Builder :=
  if w = 0#32 then pushFill b (fill 1 false)
  else if w = ALL_ONES then pushFill b (fill 1 true)
  else pushRaw b w

def push (b : Builder) (w : Word) : Builder :=
  if isFill w then pushFill b w else pushLite b w

/-- A last group that has become uniform: it is counted in the word before it when that word passes the test
for fills of its value, and is a fill of its own otherwise. -/
def absorb (test : Word → Bool) (init : Bool) (b : Builder) : Builder :=
  match b with
  | [] => [fill 1 init]
  | prev :: rest => if test prev then (prev + 1#32) :: rest else fill 1 init :: b

/-- `builder::fix`: the words of the vector, the last group masked. -/
def fix (rem : ℕ) (b : Builder) : List Word :=
  match b with
  | [] => []
  | last :: rest =>
    if rem ≠ 0 ∧ isLite last = true then
      let last := last &&& mask rem
      if last = 0#32 then (absorb isZeroes false rest).reverse
      else if last = mask rem then (absorb isOnes true rest).reverse
      else (last :: rest).reverse
    else b.reverse

/-! ### The class `iter` -/

/-- `val` after a step to the word. -/
def value (w : Word) : Word :=
  if isFill w then (if isOnes w then ALL_ONES else ALL_ZEROES) else w

/-- `cnt` after a step to the word. -/
def count (w : Word) : ℕ :=
  if isFill w then fillCount w else 1

/-- An iterator: the words from `cur` on, and what is left of the first one. -/
structure Iter where
  words : List Word
  isFill : Bool
  val : Word
  cnt : ℕ

/-- An iterator at the first word, or at the end. -/
def iter (words : List Word) : Iter where
  words := words
  isFill := isFill (words.headD 0#32)
  val := value (words.headD 0#32)
  cnt := count (words.headD 0#32)

def Iter.next (i : Iter) : Iter :=
  iter i.words.tail

def Iter.ended (i : Iter) : Bool :=
  i.words.isEmpty

/-- `consume`, with its assertion. -/
def Iter.consume (i : Iter) (c : ℕ) : Option Iter :=
  if c ≤ i.cnt then some (if i.cnt - c = 0 then i.next else { i with cnt := i.cnt - c }) else none

/-- `pushTail`: the words after the current one. -/
def pushTail (b : Builder) (words : List Word) : Builder :=
  match words with
  | [] => b
  | w :: rest => rest.reverse ++ push b w

end WAHVector

open WAHVector in
structure WAHVector where
  rem : ℕ
  words : List Word
  deriving DecidableEq

namespace WAHVector

/-- `WAHVector(void)`. -/
def null : WAHVector where
  rem := 0
  words := []

/-- `WAHVector(size, init)`. -/
def make (size : ℕ) (init : Bool) : WAHVector where
  rem := (mod size).toNat
  words := [fill (div size + if (mod size).toNat ≠ 0 then 1 else 0) init]

def bitFrom (index : ℕ) : ℕ → List Word → Option Bool
  | _, [] => none
  | i, w :: rest =>
    let top := i + times (count w)
    if i ≤ index ∧ index < top then some (value w &&& bitOf index != 0#32) else bitFrom index top rest

/-- `bit(index)`, without a result when the index is beyond the words. -/
def bit (v : WAHVector) (index : ℕ) : Option Bool :=
  bitFrom index 0 v.words

def isEmpty (v : WAHVector) : Option Bool :=
  match v.words with
  | [] => none
  | w :: rest =>
    if !isZeroes w then some false
    else if rest = [] then some true
    else some (decide (rest = [0#32]))

def isFull (v : WAHVector) : Option Bool :=
  match v.words with
  | [] => none
  | w :: rest =>
    if !isOnes w then some false
    else if rest = [] then some true
    else some (decide (rest = [mask v.rem]))

def countFrom (rem : ℕ) : List Word → ℕ
  | [] => 0
  | w :: rest =>
    (if isFill w then
      (if value w ≠ 0#32 then times (count w) - (if rem ≠ 0 ∧ rest = [] then 31 - rem else 0) else 0)
    else ones (if rem ≠ 0 ∧ rest = [] then value w &&& mask rem else value w)) + countFrom rem rest

def countOnes (v : WAHVector) : ℕ :=
  countFrom v.rem v.words

/-- The loop that `set(index)` and `clear(index)` share: the words before the one of the index are copied, that
word is updated, and split when it is a fill of the other value, and the words after it are pushed. -/
def updateFrom (value' : Bool) (index : ℕ) : ℕ → Builder → List Word → Option Builder
  | _, _, [] => none
  | i, b, w :: rest =>
    let top := i + times (count w)
    let lite := if value' then value w ||| bitOf index else value w &&& ~~~bitOf index
    if index < i ∨ top ≤ index then updateFrom value' index top (w :: b) rest
    else if !isFill w then some (pushTail (pushLite b lite) rest)
    else if (value w != 0#32) = value' then some (pushTail (w :: b) rest)
    else
      let before := div (index - i)
      let after := count w - before - 1
      let b := if before ≠ 0 then pushRaw b (fill before (value w != 0#32)) else b
      let b := pushLite b lite
      let b := if after ≠ 0 then pushRaw b (fill after (value w != 0#32)) else b
      some (pushTail b rest)

def update (v : WAHVector) (index : ℕ) (value : Bool) : Option WAHVector :=
  (updateFrom value index 0 [] v.words).map fun b => { v with words := fix v.rem b }

/-- `set(index)`. -/
def setBit (v : WAHVector) (index : ℕ) : Option WAHVector :=
  v.update index true

/-- `clear(index)`. -/
def clearBit (v : WAHVector) (index : ℕ) : Option WAHVector :=
  v.update index false

/-- The first word as `set()` and `clear()` write it, from the number of words. -/
def fillFirst (v : WAHVector) (init : Bool) : WAHVector :=
  { v with words := v.words.set 0 (fill (div v.words.length + if v.rem ≠ 0 then 1 else 0) init) }

/-- `set()`. -/
def setAll (v : WAHVector) : WAHVector :=
  v.fillFirst true

/-- `clear()`. -/
def clearAll (v : WAHVector) : WAHVector :=
  v.fillFirst false

def copy (v : WAHVector) : WAHVector :=
  v

/-- The loop of `doAnd`, `doOr` and `doReset`, with the assertion that both iterators end together. -/
def combineLoop (op : Word → Word → Word) : ℕ → Iter → Iter → Builder → Option Builder
  | 0, i1, _, b => if i1.ended then some b else none
  | fuel + 1, i1, i2, b =>
    if i1.ended then some b
    else if i2.ended then none
    else if i1.isFill && i2.isFill then do
      let n := min i1.cnt i2.cnt
      let i1' ← i1.consume n
      let i2' ← i2.consume n
      combineLoop op fuel i1' i2' (pushFill b (fill n (op i1.val i2.val != 0#32)))
    else do
      let i1' ← i1.consume 1
      let i2' ← i2.consume 1
      combineLoop op fuel i1' i2' (pushLite b (op i1.val i2.val))

/-- The number of turns that the loop takes at most: it consumes some of the first vector in each. -/
def turns (v : WAHVector) : ℕ :=
  (v.words.map fun w => count w + 1).sum

/-- `doAnd(r, v1, v2)` and its like give `r` other words and leave its `rem`. -/
def combine (op : Word → Word → Word) (r v1 v2 : WAHVector) : Option WAHVector :=
  (combineLoop op v1.turns (iter v1.words) (iter v2.words) []).map fun b => { r with words := fix v1.rem b }

def doAnd (r v1 v2 : WAHVector) : Option WAHVector :=
  combine (fun w1 w2 => w1 &&& w2) r v1 v2

def doOr (r v1 v2 : WAHVector) : Option WAHVector :=
  combine (fun w1 w2 => w1 ||| w2) r v1 v2

def doReset (r v1 v2 : WAHVector) : Option WAHVector :=
  combine (fun w1 w2 => w1 &&& ~~~w2) r v1 v2

def notLoop : Builder → List Word → Builder
  | b, [] => b
  | b, w :: rest =>
    if isFill w then notLoop (pushFill b (fill (count w) (!(value w != 0#32)))) rest
    else notLoop (pushLite b (~~~value w &&& ((1#32 <<< 31) - 1#32))) rest

def doNot (r v : WAHVector) : WAHVector :=
  { r with words := fix v.rem (notLoop [] v.words) }

def applyAnd (v vec : WAHVector) : Option WAHVector :=
  doAnd v v vec

def applyOr (v vec : WAHVector) : Option WAHVector :=
  doOr v v vec

def applyReset (v vec : WAHVector) : Option WAHVector :=
  doReset v v vec

def applyNot (v : WAHVector) : WAHVector :=
  doNot v v

/-- The result of `makeAnd` is a vector built by `WAHVector(void)`, and so of those below. -/
def makeAnd (v vec : WAHVector) : Option WAHVector :=
  doAnd null v vec

def makeOr (v vec : WAHVector) : Option WAHVector :=
  doOr null v vec

def makeReset (v vec : WAHVector) : Option WAHVector :=
  doReset null v vec

def makeNot (v : WAHVector) : WAHVector :=
  doNot null v

end Otawa.Elm.WAHVector
