import RegexMachine.RangeTable
import RegexMachine.Unicode.Binary

/-!
How characters print: which are shown as they are in a quoted literal, and how many columns of a
terminal they take. Printing knows more characters than the property tables do: those of version 17
are listed here.
-/
namespace RegexMachine.Unicode

/-- Characters that the property tables do not know yet. -/
def addedText : String :=
  "88F C5C CDC 1ACF-1ADD 1AE0-1AEB 20C1 2B96 A7CE-A7CF A7D2 A7D4 A7F1 FBC3-FBD2 FD90-FD91 FDC8-FDCE
  10940-10959 10EC5-10EC7 10ED0-10ED8 10EFA-10EFB 11B60-11B67 11DB0-11DDB 11DE0-11DE9 16EA0-16EB8
  16EBB-16ED3 16FF2-16FF6 187F8-187FF 18D09-18D1E 18D80-18DF2 1CCFA-1CCFC 1CEBA-1CED0 1CEE0-1CEF0
  1E6C0-1E6DE 1E6E0-1E6F5 1E6FE-1E6FF 1F6D8 1F777-1F77A 1F8D0-1F8D8 1FA54-1FA57 1FA8A 1FA8E 1FAC8
  1FACD 1FAEA 1FAEF 1FBFA 2B73A-2B73F 2CEA2-2CEAD 323B0-33479"

/-- Those of the added characters that belong to the character before them. -/
def addedMarksText : String :=
  "1ACF-1ADD 1AE0-1AEB 10EFA-10EFB 11B60 11B62-11B64 11B66 1E6E3 1E6E6 1E6EE-1E6EF 1E6F5"

/-- Separators other than the blank, control, format, private use and unassigned characters. -/
def hidden : RangeTable :=
  RangeTable.ofSet
    ((categories (.surrogate :: separators ++ others)).diff
      ⟨⟨0x20, 0x20⟩ :: RangeText.decode addedText⟩ 0x10FFFF)

def isPrintable (c : Nat) : Bool := c ≤ 0x10FFFF && !hidden.contains c

/-- Characters that are not seen by themselves: they are drawn into the character before them or
not at all. The two sound marks of halfwidth Katakana have a place of their own. -/
def attachedSet : CodeSet :=
  ((BinaryProperty.graphemeExtend.members.union BinaryProperty.defaultIgnorable.members).union
    ⟨RangeText.decode addedMarksText⟩).diff ⟨[⟨0xFF9E, 0xFF9F⟩]⟩ 0x10FFFF

def attached : RangeTable := RangeTable.ofSet attachedSet

def isAttached (c : Nat) : Bool := attached.contains c

/-- Characters two columns wide. -/
def wideText : String :=
  "1100-115F 17A4 231A-231B 2329-232A 23E9-23EC 23F0 23F3 25FD-25FE 2614-2615 2630-2637 2648-2653
  267F 268A-268F 2693 26A1 26AA-26AB 26BD-26BE 26C4-26C5 26CE 26D4 26EA 26F2-26F3 26F5 26FA 26FD
  2705 270A-270B 2728 274C 274E 2753-2755 2757 2795-2797 27B0 27BF 2B1B-2B1C 2B50 2B55 2E80-2E99
  2E9B-2EF3 2F00-2FD5 2FF0-303E 3041-3096 309B-30FF 3105-312F 3131-318E 3190-31E5 31EF-321E
  3220-3247 3250-A48C A490-A4C6 A960-A97C AC00-D7A3 F900-FAFF FE10-FE19 FE30-FE52 FE54-FE66
  FE68-FE6B FF01-FF60 FFE0-FFE6 16FE0-16FE3 16FF2-16FF6 17000-18CD5 18CFF-18D1E 18D80-18DF2
  1AFF0-1AFF3 1AFF5-1AFFB 1AFFD-1AFFE 1B000-1B122 1B132 1B150-1B152 1B155 1B164-1B167 1B170-1B2FB
  1D300-1D356 1D360-1D376 1F004 1F0CF 1F18E 1F191-1F19A 1F200-1F202 1F210-1F23B 1F240-1F248
  1F250-1F251 1F260-1F265 1F300-1F320 1F32D-1F335 1F337-1F37C 1F37E-1F393 1F3A0-1F3CA 1F3CF-1F3D3
  1F3E0-1F3F0 1F3F4 1F3F8-1F43E 1F440 1F442-1F4FC 1F4FF-1F53D 1F54B-1F54E 1F550-1F567 1F57A
  1F595-1F596 1F5A4 1F5FB-1F64F 1F680-1F6C5 1F6CC 1F6D0-1F6D2 1F6D5-1F6D9 1F6DC-1F6DF 1F6EB-1F6EC
  1F6F4-1F6FC 1F7DA 1F7E0-1F7EB 1F7F0 1F90C-1F93A 1F93C-1F945 1F947-1F9FF 1FA70-1FA7C 1FA80-1FA8C
  1FA8E-1FAC6 1FAC8 1FACC-1FADD 1FADF-1FAEB 1FAEF-1FAFA 20000-2FFFD 30000-3FFFD"

def wide : RangeTable := RangeTable.ofSet ⟨RangeText.decode wideText⟩

/-- Vowels and finals of Hangul syllables, and signs that are drawn into the character after
them. -/
def joinedText : String :=
  "605 70F 890-891 8E2 D4E 1161-11FF A8FA D7B0-D7C6 D7CB-D7FB 111C2-111C3 113D1 1193F 11941
  11A84-11A89 11D46 11F02"

/-- Characters that take no column of their own. Two attached characters do: a consonant joiner,
which shows where it joins nothing, and the empty initial of a Hangul syllable. -/
def zeroWidth : RangeTable :=
  RangeTable.ofSet
    ((attachedSet.union ⟨RangeText.decode joinedText⟩).diff
      ⟨[⟨0x115F, 0x115F⟩, ⟨0x2D7F, 0x2D7F⟩]⟩ 0x10FFFF)

/-- Columns a character takes on a terminal. -/
def columns (c : Nat) : Nat :=
  if c = 0x17D8 then 3
  else if zeroWidth.contains c then 0
  else if wide.contains c then 2
  else 1

end RegexMachine.Unicode
