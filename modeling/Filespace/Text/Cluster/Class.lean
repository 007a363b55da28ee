import Filespace.Text.Unprintable

/-!
# How characters hang together

What a reader takes for one character may be written with several: a letter and its accents, the parts of a
syllable, a row of pictures with joiners between them. The Unicode standard gives every character a class that
says how it behaves there (properties `Grapheme_Cluster_Break`, `Extended_Pictographic` and
`Indic_Conjunct_Break`). The tables are sorted inclusive ranges of code points; characters that join the one
before them are in `joiningRanges` already.
-/

namespace Filespace.Text

/-! ### Tables -/

/-- Characters that always stand alone, but for the two line ends. -/
def controlRanges : List (Nat × Nat) :=
  ranges "0-9 b-c e-1f 7f-9f ad 61c 180e 200b 200e-200f 2028-202e 2060-206f feff fff0-fffb 13430-1343f 1bca0-1bca3
    1d173-1d17a e0000-e001f e0080-e00ff e01f0-e0fff"

/-- Characters that go with the one after them. -/
def leadingRanges : List (Nat × Nat) :=
  ranges "600-605 6dd 70f 890-891 8e2 d4e 110bd 110cd 111c2-111c3 113d1 1193f 11941 11a84-11a89 11d46 11f02"

/-- Marks that go with the one before them and have a place of their own. -/
def spacingRanges : List (Nat × Nat) :=
  ranges "903 93b 93e-940 949-94c 94e-94f 982-983 9bf-9c0 9c7-9c8 9cb-9cc a03 a3e-a40 a83 abe-ac0 ac9 acb-acc b02-b03
    b40 b47-b48 b4b-b4c bbf bc1-bc2 bc6-bc8 bca-bcc c01-c03 c41-c44 c82-c83 cbe cc1 cc3-cc4 cf3 d02-d03 d3f-d40
    d46-d48 d4a-d4c d82-d83 dd0-dd1 dd8-dde df2-df3 e33 eb3 f3e-f3f f7f 1031 103b-103c 1056-1057 1084 17b6 17be-17c5
    17c7-17c8 1923-1926 1929-192b 1930-1931 1933-1938 1a19-1a1a 1a55 1a57 1a6d-1a72 1b04 1b3e-1b41 1b82 1ba1 1ba6-1ba7
    1be7 1bea-1bec 1bee 1c24-1c2b 1c34-1c35 1ce1 1cf7 a823-a824 a827 a880-a881 a8b4-a8c3 a952 a983 a9b4-a9b5 a9ba-a9bb
    a9be-a9bf aa2f-aa30 aa33-aa34 aa4d aaeb aaee-aaef aaf5 abe3-abe4 abe6-abe7 abe9-abea abec 11000 11002 11082
    110b0-110b2 110b7-110b8 1112c 11145-11146 11182 111b3-111b5 111bf 111ce 1122c-1122e 11232-11233 112e0-112e2
    11302-11303 1133f 11341-11344 11347-11348 1134b-1134c 11362-11363 113b9-113ba 113ca 113cc-113cd 11435-11437
    11440-11441 11445 114b1-114b2 114b9 114bb-114bc 114be 114c1 115b0-115b1 115b8-115bb 115be 11630-11632 1163b-1163c
    1163e 116ac 116ae-116af 1171e 11726 1182c-1182e 11838 11931-11935 11937-11938 11940 11942 119d1-119d3 119dc-119df
    119e4 11a39 11a57-11a58 11a97 11b61 11b65 11b67 11c2f 11c3e 11ca9 11cb1 11cb4 11d8a-11d8e 11d93-11d94 11d96
    11ef5-11ef6 11f03 11f34-11f35 11f3e-11f3f 1612a-1612c 16f51-16f87"

/-- Pictures that joiners may put in a row. -/
def pictureRanges : List (Nat × Nat) :=
  ranges "a9 ae 203c 2049 2122 2139 2194-2199 21a9-21aa 231a-231b 2328 23cf 23e9-23f3 23f8-23fa 24c2 25aa-25ab 25b6
    25c0 25fb-25fe 2600-2604 260e 2611 2614-2615 2618 261d 2620 2622-2623 2626 262a 262e-262f 2638-263a 2640 2642
    2648-2653 265f-2660 2663 2665-2666 2668 267b 267e-267f 2692-2697 2699 269b-269c 26a0-26a1 26a7 26aa-26ab 26b0-26b1
    26bd-26be 26c4-26c5 26c8 26ce-26cf 26d1 26d3-26d4 26e9-26ea 26f0-26f5 26f7-26fa 26fd 2702 2705 2708-270d 270f 2712
    2714 2716 271d 2721 2728 2733-2734 2744 2747 274c 274e 2753-2755 2757 2763-2764 2795-2797 27a1 27b0 27bf 2934-2935
    2b05-2b07 2b1b-2b1c 2b50 2b55 3030 303d 3297 3299 1f004 1f02c-1f02f 1f094-1f09f 1f0af-1f0b0 1f0c0 1f0cf-1f0d0
    1f0f6-1f0ff 1f170-1f171 1f17e-1f17f 1f18e 1f191-1f19a 1f1ae-1f1e5 1f201-1f20f 1f21a 1f22f 1f232-1f23a 1f23c-1f23f
    1f249-1f25f 1f266-1f321 1f324-1f393 1f396-1f397 1f399-1f39b 1f39e-1f3f0 1f3f3-1f3f5 1f3f7-1f3fa 1f400-1f4fd
    1f4ff-1f53d 1f549-1f54e 1f550-1f567 1f56f-1f570 1f573-1f57a 1f587 1f58a-1f58d 1f590 1f595-1f596 1f5a4-1f5a5 1f5a8
    1f5b1-1f5b2 1f5bc 1f5c2-1f5c4 1f5d1-1f5d3 1f5dc-1f5de 1f5e1 1f5e3 1f5e8 1f5ef 1f5f3 1f5fa-1f64f 1f680-1f6c5
    1f6cb-1f6d2 1f6d5-1f6e5 1f6e9 1f6eb-1f6f0 1f6f3-1f6ff 1f7da-1f7ff 1f80c-1f80f 1f848-1f84f 1f85a-1f85f 1f888-1f88f
    1f8ae-1f8af 1f8bc-1f8bf 1f8c2-1f8cf 1f8d9-1f8ff 1f90c-1f93a 1f93c-1f945 1f947-1f9ff 1fa58-1fa5f 1fa6e-1faff
    1fc00-1fffd"

/-- Consonants that a linker may tie to the next one. -/
def consonantRanges : List (Nat × Nat) :=
  ranges "915-939 958-95f 978-97f 995-9a8 9aa-9b0 9b2 9b6-9b9 9dc-9dd 9df 9f0-9f1 a95-aa8 aaa-ab0 ab2-ab3 ab5-ab9 af9
    b15-b28 b2a-b30 b32-b33 b35-b39 b5c-b5d b5f b71 c15-c28 c2a-c39 c58-c5a d15-d3a 1000-102a 103f 1050-1055 105a-105d
    1061 1065-1066 106e-1070 1075-1081 108e 1780-17b3 1a20-1a54 1b0b-1b0c 1b13-1b33 1b45-1b4c 1b83-1ba0 1bae-1baf
    1bbb-1bbd a989-a98b a98f-a9b2 a9e0-a9e4 a9e7-a9ef a9fa-a9fe aa60-aa6f aa71-aa73 aa7a aa7e-aa7f aae0-aaea abc0-abda
    10a00 10a10-10a13 10a15-10a17 10a19-10a35 11103-11126 11144 11147 11380-11389 1138b 1138e 11390-113b5 11900-11906
    11909 1190c-11913 11915-11916 11918-1192f 11a00 11a0b-11a32 11a50 11a5c-11a83 11f04-11f10 11f12-11f33"

/-- Marks that tie two consonants together. -/
def linkerRanges : List (Nat × Nat) :=
  ranges "94d 9cd acd b4d c4d d4d 1039 17d2 1a60 1b44 1bab a9c0 aaf6 10a3f 11133 113d0 1193e 11a47 11a99 11f42"

/-- Skin tones, which join the picture before them. -/
def toneRanges : List (Nat × Nat) :=
  [(0x1f3fb, 0x1f3ff)]

/-- Letters of which two make a flag. -/
def flagRanges : List (Nat × Nat) :=
  [(0x1f1e6, 0x1f1ff)]

/-- First parts of a syllable block. -/
def onsetRanges : List (Nat × Nat) :=
  [(0x1100, 0x115f), (0xa960, 0xa97c)]

/-- Middle parts of a syllable block. -/
def nucleusRanges : List (Nat × Nat) :=
  [(0x1160, 0x11a7), (0xd7b0, 0xd7c6), (0x16d63, 0x16d63), (0x16d67, 0x16d6a)]

/-- Last parts of a syllable block. -/
def codaRanges : List (Nat × Nat) :=
  [(0x11a8, 0x11ff), (0xd7cb, 0xd7fb)]

/-! ### Classes -/

/-- The classes of characters. -/
inductive Class where
  | carriageReturn
  | lineFeed
  | control
  | mark
  /-- The mark that ends a conjunct of consonants. -/
  | breaker
  | linker
  | joiner
  | spacing
  /-- A character that goes with the one after it. -/
  | leading
  | flag
  | picture
  | consonant
  /-- The first part of a syllable. -/
  | onset
  | nucleus
  /-- The last part of a syllable. -/
  | coda
  /-- A syllable that a last part may follow. -/
  | openSyllable
  | closedSyllable
  | other
  deriving DecidableEq

def firstSyllable : Nat := 0xac00

def lastSyllable : Nat := 0xd7a3

/-- The class of a character. Printable ASCII is answered at once. Every 28th syllable has no last part. -/
def classOf (c : Char) : Class :=
  let n := c.toNat
  if 0x20 ≤ n && n < 0x7f then .other
  else if n = 0x0d then .carriageReturn
  else if n = 0x0a then .lineFeed
  else if n = 0x200d then .joiner
  else if n = 0x200c then .breaker
  else if inRanges n controlRanges then .control
  else if inRanges n linkerRanges then .linker
  else if inRanges n joiningRanges || inRanges n toneRanges then .mark
  else if inRanges n spacingRanges then .spacing
  else if inRanges n leadingRanges then .leading
  else if inRanges n flagRanges then .flag
  else if inRanges n pictureRanges then .picture
  else if inRanges n consonantRanges then .consonant
  else if inRanges n onsetRanges then .onset
  else if inRanges n nucleusRanges then .nucleus
  else if inRanges n codaRanges then .coda
  else if firstSyllable ≤ n && n ≤ lastSyllable then
    if (n - firstSyllable) % 28 = 0 then .openSyllable else .closedSyllable
  else .other

end Filespace.Text
