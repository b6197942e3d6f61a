/-! # A 64-bit Mersenne twister

The generator MT19937-64: 312 words of state seeded from one 64-bit word, a twist of the whole
state every 312 outputs, and a tempering of each output word.

`Twister.upTo g hi` draws a number from `0` to `hi`, each equally likely, by multiplying a drawn
word with `hi + 1` and keeping the upper 64 bits of the product; a product whose lower half falls
below `2^64 mod (hi + 1)` is drawn again, which removes the bias.
-/

namespace DriverSynth

/-- The state of the generator: its words and the index of the next word to hand out. -/
structure Twister where
  words : Array UInt64
  index : Nat
deriving Inhabited

namespace Twister

/-- The number of words of state. -/
def stateSize : Nat := 312

/-- The distance of the word that a twist mixes in. -/
def shift : Nat := 156

/-- The generator seeded with a word. -/
def seed (s : UInt64) : Twister :=
  let words := (List.range (stateSize - 1)).foldl (fun (acc : Array UInt64) i =>
    let prev := acc.getD i 0
    acc.push ((6364136223846793005 : UInt64) * (prev ^^^ (prev >>> 62)) + (i + 1).toUInt64)) #[s]
  ⟨words, stateSize⟩

/-- Renews every word of the state, in order, each from the words as they are at that moment. -/
def twist (words : Array UInt64) : Array UInt64 :=
  (List.range stateSize).foldl (fun (w : Array UInt64) i =>
    let x := (w.getD i 0 &&& 0xFFFFFFFF80000000) |||
      (w.getD ((i + 1) % stateSize) 0 &&& 0x7FFFFFFF)
    let xa := if x &&& 1 == 0 then x >>> 1 else (x >>> 1) ^^^ 0xB5026F5AA96619E9
    w.setIfInBounds i (w.getD ((i + shift) % stateSize) 0 ^^^ xa)) words

/-- Scrambles a word of state into an output. -/
def temper (y : UInt64) : UInt64 :=
  let y := y ^^^ ((y >>> 29) &&& 0x5555555555555555)
  let y := y ^^^ ((y <<< 17) &&& 0x71D67FFFEDA60000)
  let y := y ^^^ ((y <<< 37) &&& 0xFFF7EEE000000000)
  y ^^^ (y >>> 43)

/-- The next output word. -/
def next (g : Twister) : UInt64 × Twister :=
  let g := if stateSize ≤ g.index then ⟨twist g.words, 0⟩ else g
  (temper (g.words.getD g.index 0), ⟨g.words, g.index + 1⟩)

/-- Draws words until the lower half of `word · range` is at least `floor`; gives up after
`fuel` more draws, keeping the last. -/
def redraw (range floor : Nat) : Nat → Nat → Twister → Nat × Twister
  | 0, product, g => (product, g)
  | fuel + 1, product, g =>
    if product % Nat.pow 2 64 < floor then
      let (x, g) := g.next
      redraw range floor fuel (x.toNat * range) g
    else (product, g)

/-- A number from `0` to `hi`, each equally likely. -/
def upTo (g : Twister) (hi : Nat) : Nat × Twister :=
  let (x, g) := g.next
  if Nat.pow 2 64 - 1 ≤ hi then (x.toNat, g)
  else
    let range := hi + 1
    let product := x.toNat * range
    if product % Nat.pow 2 64 < range then
      let (product, g) := redraw range ((Nat.pow 2 64 - range) % range) 256 product g
      (product / Nat.pow 2 64, g)
    else (product / Nat.pow 2 64, g)

end Twister

end DriverSynth
