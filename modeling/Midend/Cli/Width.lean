import Midend.Cli.CharClass

/-! # Widths of texts

How many columns of a terminal a text takes. Most characters take a width of their own, which is
`aloneWidth`, but some are drawn together with what follows them: letters that form ligatures, emoji
that are joined or carry a skin tone, and characters whose style a selector changes. A text is
therefore measured from its end: `Next` is what is known about the characters behind one, and
`measure` gives the columns that the character adds. -/

namespace Midend

namespace Cli

/-! ## Codes with a part of their own -/

/-- Joins the characters around it. -/
def joinerCode : Nat := 0x200D

/-- Asks for the text style of the character before it. -/
def textSelector : Nat := 0xFE0E

/-- Asks for the emoji style of the character before it. -/
def emojiSelector : Nat := 0xFE0F

/-- Asks for the wide form of the quotation mark before it. -/
def wideSelector : Nat := 0xFE01

/-- Whether a character is one of the letters that make up flags. -/
def isFlagLetter (code : Nat) : Bool := 0x1F1E6 ≤ code && code ≤ 0x1F1FF

/-- Whether a character is a skin tone. -/
def isSkinTone (code : Nat) : Bool := 0x1F3FB ≤ code && code ≤ 0x1F3FF

/-- Whether a character is a letter of a hidden tag. -/
def isTagLetter (code : Nat) : Bool := 0xE0061 ≤ code && code ≤ 0xE007A

/-- Whether a character is a digit of a hidden tag. -/
def isTagDigit (code : Nat) : Bool := 0xE0030 ≤ code && code ≤ 0xE0039

/-- The flag that a hidden tag may follow. -/
def taggedFlag : Nat := 0x1F3F4

/-- Whether a character is a quotation mark with a wide form. -/
def isQuotationMark (code : Nat) : Bool :=
  code == 0x2018 || code == 0x2019 || code == 0x201C || code == 0x201D

/-- Whether a character is a Tifinagh consonant. -/
def isTifinagh (code : Nat) : Bool := 0x2D31 ≤ code && code ≤ 0x2D65 || code == 0x2D6F

/-- Whether a character takes no column and leaves a ligature around it alone. -/
def isFiller (code : Nat) : Bool :=
  code == 0x034F || 0x17B4 ≤ code && code ≤ 0x17B5 || 0x180B ≤ code && code ≤ 0x180D ||
    code == 0x180F || code == joinerCode || 0xFE00 ≤ code && code ≤ 0xFE0F ||
    0xE0100 ≤ code && code ≤ 0xE01EF

/-- Whether a character takes no column and leaves a lam and an alef around it together. -/
def isArabicFiller (code : Nat) : Bool :=
  inRanges zeroWidthRanges code && !inRanges separatingRanges code

/-- Whether a character has an emoji style that a selector can ask for. -/
def hasEmojiStyle (code : Nat) : Bool :=
  inRanges plainEmojiRanges code || inRanges textEmojiRanges code

/-- Whether a character is narrower in the text style that a selector can ask for. Those in squares
and circles of ideographs stay wide. -/
def hasNarrowStyle (code : Nat) : Bool :=
  inRanges textEmojiRanges code && !(0x1F200 ≤ code && code ≤ 0x1F2FF)

/-! ## What follows a character -/

/-- What follows a character, as far as the two may be drawn together. -/
inductive Follower where
  /-- Nothing of interest. -/
  | other
  /-- A line feed. -/
  | lineFeed
  /-- A skin tone. -/
  | skinTone
  /-- A single flag letter. -/
  | flagLetter
  /-- Several flag letters. -/
  | flagLetters
  /-- An emoji. -/
  | emoji
  /-- A joiner and an emoji. -/
  | joinedEmoji
  /-- A keycap, a joiner and an emoji. -/
  | joinedKeycap
  /-- A flag letter, a joiner and an emoji. -/
  | joinedFlagLetter
  /-- An even number of flag letters, a joiner and an emoji. -/
  | joinedEvenFlagLetters
  /-- An odd number of flag letters, a joiner and an emoji. -/
  | joinedOddFlagLetters
  /-- Some letters at the end of a hidden tag, a joiner and an emoji. -/
  | joinedTagLetters (count : Nat)
  /-- Some digits in a hidden tag, a joiner and an emoji. -/
  | joinedTagDigits (count : Nat)
  /-- The Kirat Rai vowel sign E. -/
  | vowelE
  /-- The Kirat Rai vowel sign AI, or two signs that make it up. -/
  | vowelAi
  /-- An Arabic alef. -/
  | alef
  /-- A Hebrew lamed, with a joiner or not. -/
  | lamed (joined : Bool)
  /-- A Buginese ya, with a joiner or not. -/
  | ya (joined : Bool)
  /-- A Buginese vowel sign I with a joined ya. -/
  | vowelYa
  /-- A Tifinagh consonant, with a joiner or not. -/
  | consonant (joined : Bool)
  /-- A Tifinagh consonant after its own joiner. -/
  | boundConsonant
  /-- A Lisu tone letter that combines with one before it. -/
  | toneLetter
  /-- The Old Turkic letter I, with a joiner or not. -/
  | orkhonI (joined : Bool)
  /-- A Khmer letter that may stand below another one. -/
  | coengLetter
  deriving DecidableEq, Repr

namespace Follower

/-- Whether the follower is a letter, which selectors do not hide. -/
def isLetter : Follower → Bool
  | .alef | .lamed _ | .ya _ | .vowelYa | .consonant _ | .boundConsonant | .toneLetter
  | .orkhonI _ | .coengLetter => true
  | _ => false

/-- Whether fillers may stand before the follower. -/
def admitsFillers (follower : Follower) : Bool := follower.isLetter && follower != .alef

/-- Whether an emoji with a selector before the follower is joined to it. -/
def isJoined : Follower → Bool
  | .joinedEmoji | .joinedKeycap => true
  | _ => false

/-- The follower with a joiner before it. -/
def join : Follower → Follower
  | .lamed _ => .lamed true
  | .ya _ => .ya true
  | .consonant _ => .consonant true
  | .orkhonI _ => .orkhonI true
  | follower => follower

end Follower

/-- What is known about the characters behind one: the follower, and the selectors before it. -/
structure Next where
  /-- What follows. -/
  follower : Follower := .other
  /-- Whether a selector asks for the emoji style. -/
  emojiStyle : Bool := false
  /-- Whether a selector asks for the text style. -/
  textStyle : Bool := false
  /-- Whether a selector asks for the wide form. -/
  wideForm : Bool := false
  deriving DecidableEq, Repr

namespace Next

/-- What a selector leaves of the follower, unless it is a letter. -/
def hidden (next : Next) : Next := if next.follower.isLetter then next else {}

/-- What is known with one more selector for the emoji style. -/
def withEmojiStyle (next : Next) : Next :=
  if next.follower.isJoined then { next with emojiStyle := true }
  else { next.hidden with emojiStyle := true }

/-- What is known with one more selector for the text style. -/
def withTextStyle (next : Next) : Next := { next.hidden with textStyle := true }

/-- What is known with one more selector for the wide form. -/
def withWideForm (next : Next) : Next := { next.hidden with wideForm := true }

/-- What is known after a selector for the emoji style that means nothing. -/
def withoutEmojiStyle (next : Next) : Next :=
  if next.emojiStyle then { next.hidden with emojiStyle := false } else next

end Next

/-! ## Characters -/

/-- The columns that a character takes when it is not drawn together with what follows it, and what
it is to the character before it. -/
def aloneWidth (code : Nat) : Nat × Follower :=
  if code = 0x05DC then (1, .lamed false)
  else if inRanges alefRanges code then (1, .alef)
  else if inRanges coengRanges code then (1, .coengLetter)
  else if code = 0x17D8 then (3, .other)
  else if code = 0x1A10 then (1, .ya false)
  else if isTifinagh code then (1, .consonant false)
  else if 0xA4FC ≤ code && code ≤ 0xA4FD then (1, .toneLetter)
  else if code = 0x10C03 then (1, .orkhonI false)
  else if code = 0x16D67 then (1, .vowelE)
  else if code = 0x16D68 then (1, .vowelAi)
  else if isFlagLetter code then (1, .flagLetter)
  else if isSkinTone code then (2, .skinTone)
  else if inRanges emojiRanges code then (2, .emoji)
  else if inRanges zeroWidthRanges code then (0, .other)
  else if inRanges wideRanges code then (2, .other)
  else (1, .other)

/-- The columns that a character adds to those of its follower when the two are drawn together, and
what they are to the character before them. The sum may be smaller than that of the follower. -/
def joinedWidth? (code : Nat) : Follower → Option (Int × Follower)
  | .alef =>
    if inRanges lamRanges code then some (0, .other)
    else if isArabicFiller code then some (0, .alef)
    else none
  | .lamed true => if code = 0x05D0 then some (0, .other) else none
  | .coengLetter => if code = 0x17D2 then some (-1, .other) else none
  | .ya true => if code = 0x1A17 then some (0, .vowelYa) else none
  | .vowelYa => if code = 0x1A15 then some (0, .other) else none
  | .consonant joined =>
    if code = 0x2D7F then some (1, .boundConsonant)
    else if joined && isTifinagh code then some (0, .other)
    else none
  | .boundConsonant => if isTifinagh code then some (-1, .other) else none
  | .toneLetter => if 0xA4F8 ≤ code && code ≤ 0xA4FB then some (0, .other) else none
  | .orkhonI true => if code = 0x10C32 then some (0, .other) else none
  | .vowelE =>
    if code = 0x16D63 || code = 0x16D69 then some (0, .other)
    else if code = 0x16D67 then some (0, .vowelAi)
    else if code = 0x16D68 then some (1, .vowelE)
    else none
  | .vowelAi => if code = 0x16D63 then some (0, .other) else none
  | .skinTone =>
    if inRanges modifierBaseRanges code then some (0, .emoji)
    else if code = joinerCode then some (0, .joinedEmoji)
    else none
  | .flagLetter => if isFlagLetter code then some (1, .flagLetters) else none
  | .flagLetters =>
    if isFlagLetter code then some (1, .flagLetters)
    else if code = joinerCode then some (0, .joinedEmoji)
    else none
  | .emoji => if code = joinerCode then some (0, .joinedEmoji) else none
  | .joinedEmoji =>
    if code = 0x20E3 then some (0, .joinedKeycap)
    else if isFlagLetter code then some (1, .joinedFlagLetter)
    else if isSkinTone code then some (0, .skinTone)
    else if code = 0xE007F then some (0, .joinedTagLetters 0)
    else if inRanges emojiRanges code then some (0, .emoji)
    else none
  | .joinedFlagLetter => if isFlagLetter code then some (-1, .joinedEvenFlagLetters) else none
  | .joinedEvenFlagLetters =>
    if isFlagLetter code then some (3, .joinedOddFlagLetters)
    else if code = joinerCode then some (0, .joinedEmoji)
    else none
  | .joinedOddFlagLetters =>
    if isFlagLetter code then some (-1, .joinedEvenFlagLetters)
    else if code = joinerCode then some (0, .joinedEmoji)
    else none
  | .joinedTagLetters count =>
    if isTagLetter code && count < 6 then some (0, .joinedTagLetters (count + 1))
    else if isTagDigit code && count < 5 then some (0, .joinedTagDigits 1)
    else if code = taggedFlag && 3 ≤ count then some (0, .emoji)
    else none
  | .joinedTagDigits count =>
    if isTagDigit code && count < 3 then some (0, .joinedTagDigits (count + 1))
    else if code = taggedFlag && count = 3 then some (0, .emoji)
    else none
  | _ => none

/-- The columns that a character adds, whatever selectors follow it, and what is known before it. -/
def measureUnstyled (code : Nat) (follower : Follower) : Int × Next :=
  if follower.admitsFillers && code = joinerCode then (0, { follower := follower.join })
  else if follower.admitsFillers && isFiller code then (0, { follower })
  else
    match joinedWidth? code follower with
    | some (width, follower) => (width, { follower })
    | none => ((aloneWidth code).1, { follower := (aloneWidth code).2 })

/-- The columns that a character adds to those of what follows it, and what is known before it.
Characters of the first block are never drawn together with others, except that an emoji style may
be asked for and that a carriage return before a line feed takes no column. -/
def measure (code : Nat) (next : Next) : Int × Next :=
  if next.emojiStyle && hasEmojiStyle code then
    (if next.follower.isJoined then 0 else 2, { follower := .emoji })
  else
    let next := next.withoutEmojiStyle
    if code = 0x000A then (1, { follower := .lineFeed })
    else if code = 0x000D && next.follower = .lineFeed then (0, {})
    else if code ≤ 0x00A0 then (1, {})
    else if code = emojiSelector then (0, next.withEmojiStyle)
    else if code = textSelector then (0, next.withTextStyle)
    else if code = wideSelector then (0, next.withWideForm)
    else if next.textStyle && hasNarrowStyle code then (1, {})
    else if next.wideForm && isQuotationMark code then (2, {})
    else measureUnstyled code next.follower

/-- The number of columns that a text takes. -/
def textWidth (text : String) : Nat :=
  let total := text.toList.foldr (fun char (sum, next) =>
    let (width, next) := measure char.toNat next
    (sum + width, next)) ((0, {}) : Int × Next)
  total.1.toNat

end Cli

end Midend
