/-! # Bit sets

A set of indices below a fixed capacity, kept as 64-bit words. Bits at or above the capacity are
never set, so two sets of one capacity are equal exactly when they hold the same indices. The
operations that a caller may misuse come in a checked form ending in `?`, which refuses an index
outside the capacity or a partner of another capacity. An iteration takes the lowest bit that is
still to come, word after word (`Cursor.next?`). -/

namespace Midend

/-- A set of indices below `capacity`, as 64-bit words of membership bits. -/
structure BitSet where
  /-- Indices below this bound may be members. -/
  capacity : Nat
  /-- Index `i` is bit `i % 64` of word `i / 64`. -/
  words : List UInt64
  deriving DecidableEq, Repr

namespace BitSet

/-- The number of bits in one word. -/
def wordBits : Nat := 64

/-- The word with only the given bit set. -/
def maskBit (bit : Nat) : UInt64 := 1 <<< UInt64.ofNat bit

/-- Whether a bit of a word is set. -/
def testBit (word : UInt64) (bit : Nat) : Bool := word &&& maskBit bit != 0

/-- The number of words that hold `capacity` bits. -/
def wordCount (capacity : Nat) : Nat := (capacity + (wordBits - 1)) / wordBits

/-- The empty set of a capacity. -/
def empty (capacity : Nat) : BitSet := ⟨capacity, List.replicate (wordCount capacity) 0⟩

/-- Whether an index is a member; an index outside the capacity never is. -/
def contains (set : BitSet) (index : Nat) : Bool :=
  index < set.capacity &&
    match set.words[index / wordBits]? with
    | some word => testBit word (index % wordBits)
    | none => false

instance : Membership Nat BitSet := ⟨fun set index => set.contains index = true⟩

instance (index : Nat) (set : BitSet) : Decidable (index ∈ set) :=
  inferInstanceAs (Decidable (set.contains index = true))

/-- Whether no index is a member. -/
def isEmpty (set : BitSet) : Bool := set.words.all (· == 0)

/-- The bits set in a word, in ascending order. -/
def wordMembers (word : UInt64) : List Nat := (List.range wordBits).filter (testBit word)

/-- The members in ascending order. -/
def toList (set : BitSet) : List Nat :=
  set.words.zipIdx.flatMap fun (word, position) =>
    (wordMembers word).map (position * wordBits + ·)

/-- The number of members. -/
def count (set : BitSet) : Nat :=
  set.words.foldl (fun total word => total + (List.range wordBits).countP (testBit word)) 0

/-! ## Iteration -/

/-- The number of zero bits below the lowest one that is set, `wordBits` if none is. -/
def lowestBit (word : UInt64) : Nat := (List.range wordBits).findIdx (testBit word)

/-- The word without its lowest set bit. -/
def clearLowest (word : UInt64) : UInt64 := word &&& (word - 1)

/-- A place in the iteration over the members of a set. -/
structure Cursor where
  /-- The place of the current word. -/
  position : Nat
  /-- The bits of the current word that are still to come. -/
  current : UInt64
  /-- The words after the current one. -/
  later : List UInt64
  deriving DecidableEq, Repr

/-- The place before the first member. -/
def cursor (set : BitSet) : Cursor := ⟨0, set.words.headD 0, set.words.tail⟩

/-- The lowest bit of the current word, or of the first later word that has one. -/
def nextFrom (position : Nat) (current : UInt64) (later : List UInt64) : Option (Nat × Cursor) :=
  if current ≠ 0 then
    some (position * wordBits + lowestBit current, ⟨position, clearLowest current, later⟩)
  else
    match later with
    | [] => none
    | word :: rest => nextFrom (position + 1) word rest

/-- The next member and the place behind it, if there is one. -/
def Cursor.next? (cursor : Cursor) : Option (Nat × Cursor) :=
  nextFrom cursor.position cursor.current cursor.later

/-- The members from a place on, as many as the budget allows. -/
def Cursor.collect : (budget : Nat) → Cursor → List Nat
  | 0, _ => []
  | budget + 1, cursor =>
    match cursor.next? with
    | none => []
    | some (index, after) => index :: after.collect budget

/-- The members in the order of the iteration; there are never more of them than bits. -/
def iterate (set : BitSet) : List Nat := set.cursor.collect (set.words.length * wordBits)

/-! ## Changing one index -/

/-- Adds an index; one outside the capacity changes nothing. -/
def insert (set : BitSet) (index : Nat) : BitSet :=
  if index < set.capacity then
    { set with
      words := set.words.modify (index / wordBits) (· ||| maskBit (index % wordBits)) }
  else set

/-- Removes an index; one outside the capacity changes nothing. -/
def erase (set : BitSet) (index : Nat) : BitSet :=
  if index < set.capacity then
    { set with
      words := set.words.modify (index / wordBits) (· &&& ~~~ maskBit (index % wordBits)) }
  else set

/-- Adds an index below the capacity, and tells whether it was absent. -/
def insert? (set : BitSet) (index : Nat) : Option (Bool × BitSet) :=
  if index < set.capacity then some (!set.contains index, set.insert index) else none

/-- Removes an index below the capacity, and tells whether it was present. -/
def erase? (set : BitSet) (index : Nat) : Option (Bool × BitSet) :=
  if index < set.capacity then some (set.contains index, set.erase index) else none

/-! ## Changing all indices -/

/-- Removes every index. -/
def clear (set : BitSet) : BitSet := { set with words := set.words.map fun _ => 0 }

/-- All words full, with the bits at and above the capacity left out of the last one. -/
def fill (set : BitSet) : BitSet :=
  let full := set.words.map fun _ => (0 : UInt64) - 1
  let excess := set.capacity % wordBits
  if excess = 0 then { set with words := full }
  else { set with words := full.modify (full.length - 1) fun _ => maskBit excess - 1 }

/-- The set of all indices below a capacity. -/
def full (capacity : Nat) : BitSet := (empty capacity).fill

/-- Combines two sets word by word. -/
def combine (operation : UInt64 → UInt64 → UInt64) (set other : BitSet) : BitSet :=
  { set with words := List.zipWith operation set.words other.words }

/-- The indices of either set. -/
def union : BitSet → BitSet → BitSet := combine (· ||| ·)

/-- The indices of both sets. -/
def inter : BitSet → BitSet → BitSet := combine (· &&& ·)

/-- The indices of the first set that are not in the second. -/
def diff : BitSet → BitSet → BitSet := combine fun left right => left &&& ~~~ right

/-- Runs a combination on sets of one capacity, and tells whether a word of the first set changed. -/
def combine? (operation : BitSet → BitSet → BitSet) (set other : BitSet) :
    Option (Bool × BitSet) :=
  if set.capacity = other.capacity then
    let result := operation set other
    some ((List.zipWith (· != ·) set.words result.words).any id, result)
  else none

/-- Whether every index of the first set is in the second. -/
def isSubset (set other : BitSet) : Bool :=
  (List.zipWith (fun left right => left &&& ~~~ right == 0) set.words other.words).all id

/-- Inclusion between sets of one capacity. -/
def isSubset? (set other : BitSet) : Option Bool :=
  if set.capacity = other.capacity then some (set.isSubset other) else none

/-- The members between braces, separated by commas. -/
def render (set : BitSet) : String :=
  "\x7b" ++ ", ".intercalate (set.iterate.map toString) ++ "\x7d"

end BitSet

end Midend
