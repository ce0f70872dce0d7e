import Mathlib.Data.List.Basic
import Mathlib.Logic.Function.Basic

/-! The configuration of the loader: config.c cuts its text in place and keeps pointers into it. -/
namespace Pinion64

abbrev Byte := BitVec 8

def nul : Byte := 0x00
def tab : Byte := 0x09
def newline : Byte := 0x0A
def space : Byte := 0x20
def hash : Byte := 0x23

/-- A pointer into the text is its offset there, NULL is `none`. -/
structure ConfigItem where
  sectionAt : Option ℕ
  propertyAt : Option ℕ
  valueAt : Option ℕ
  deriving DecidableEq

def configIndexSize : ℕ := 64

/-- The text, with its NUL as the last byte, and config_index. -/
structure Config where
  text : List Byte
  configIndex : ℕ → ConfigItem

namespace Config

def setItem (k : Config) (index : ℕ) (item : ConfigItem) : Config :=
  { k with configIndex := Function.update k.configIndex index item }

def setSection (k : Config) (index : ℕ) (p : Option ℕ) : Config :=
  k.setItem index { k.configIndex index with sectionAt := p }

def setProperty (k : Config) (index : ℕ) (p : Option ℕ) : Config :=
  k.setItem index { k.configIndex index with propertyAt := p }

def setValue (k : Config) (index : ℕ) (p : Option ℕ) : Config :=
  k.setItem index { k.configIndex index with valueAt := p }

/-- The string at an offset, up to its NUL. -/
def stringFrom : List Byte → Option (List Byte)
  | [] => none
  | c :: cs => if c = nul then some [] else (stringFrom cs).map (c :: ·)

def string (text : List Byte) (i : ℕ) : Option (List Byte) := stringFrom (text.drop i)

end Config

section Parse

def blankChar (c : Byte) : Bool := c = space ∨ c = tab

/-- What the scanners of a section and a property go over. -/
def fieldChar (c : Byte) : Bool := c ≠ nul ∧ c ≠ space ∧ c ≠ tab ∧ c ≠ newline

/-- What the scanners of a value and a comment go over. -/
def valueChar (c : Byte) : Bool := c ≠ nul ∧ c ≠ newline

def skipFrom (p : Byte → Bool) : List Byte → ℕ → Option ℕ
  | [], _ => none
  | c :: cs, i => if p c then skipFrom p cs (i+1) else some i

/-- `for (; p(pconf[i]); i++);`. There is no result if it reads behind the text. -/
def skip (p : Byte → Bool) (text : List Byte) (i : ℕ) : Option ℕ := skipFrom p (text.drop i) i

/-- How the scanner of one field ends: at the NUL before the field, at the NUL behind it, or
behind the character that ends it, which is overwritten. -/
inductive Field
  | eof
  | cut (start : ℕ)
  | field (start next : ℕ) (text : List Byte)

def parseField (p : Byte → Bool) (text : List Byte) (i : ℕ) : Option Field := do
  let i ← skip blankChar text i
  let c ← text[i]?
  if c = nul then some .eof
  else
    let j ← skip p text i
    let c ← text[j]?
    if c = nul then some (.cut i) else some (.field i (j+1) (text.set j nul))

/-- The three fields of an entry. Without a second component config_parse returns. -/
def parseEntry (k : Config) (index i : ℕ) : Option (Config × Option ℕ) := do
  match ← parseField fieldChar k.text i with
  | .eof => some (k, none)
  | .cut start => some ((k.setSection index (some start)).setSection index none, none)
  | .field start i text =>
    let k := { k.setSection index (some start) with text }
    match ← parseField fieldChar k.text i with
    | .eof => some (k, none)
    | .cut start => some ((k.setProperty index (some start)).setSection index none, none)
    | .field start i text =>
      let k := { k.setProperty index (some start) with text }
      match ← parseField valueChar k.text i with
      | .eof => some (k, none)
      | .cut start => some ((k.setValue index (some start)).setSection index none, none)
      | .field start i text => some ({ k.setValue index (some start) with text }, some i)

/-- The loop over the lines, with `index` the next slot and `i` the cursor. -/
def configParseFrom : ℕ → Config → ℕ → ℕ → Option Config
  | 0, _, _, _ => none
  | fuel+1, k, index, i => do
    let c ← k.text[i]?
    if c = hash then
      let i ← skip valueChar k.text i
      let c ← k.text[i]?
      configParseFrom fuel k index (if c ≠ nul then i+1 else i)
    else if c = newline then configParseFrom fuel k index (i+1)
    else if c = nul then some k
    else
      let (k, next) ← parseEntry k index i
      match next with
      | none => some k
      | some i => if index + 1 = configIndexSize then some k else configParseFrom fuel k (index+1) i

def configParse (fuel : ℕ) (text : List Byte) : Option Config :=
  configParseFrom fuel ⟨text, fun _ => ⟨none, none, none⟩⟩ 0 0

end Parse

section Read

/-- Whether strcmp reports a difference between the string in the text and a string of the
caller, which is given without its NUL. It stops at the end of the shorter one. -/
def Config.strcmpFrom : List Byte → List Byte → Option Bool
  | [], _ => none
  | _ :: _, [] => some false
  | a :: as, b :: bs =>
    if a = nul then some false else if a ≠ b then some true else strcmpFrom as bs

/-- NULL is no string to compare. -/
def Config.strcmp (k : Config) (a : Option ℕ) (b : List Byte) : Option Bool := do
  strcmpFrom (k.text.drop (← a)) b

/-- The loop of config_read with `n` slots left to look at. -/
def configReadFrom (k : Config) (sectionName property : List Byte) : ℕ → ℕ → Option (Option ℕ)
  | 0, _ => some none
  | n+1, i => do
    if (k.configIndex i).sectionAt = none then some none
    else
      if ← k.strcmp (k.configIndex i).sectionAt sectionName then
        configReadFrom k sectionName property n (i+1)
      else if ← k.strcmp (k.configIndex i).propertyAt property then
        configReadFrom k sectionName property n (i+1)
      else some (k.configIndex i).valueAt

/-- There is no result if it dereferences NULL or reads behind the text. -/
def configRead (k : Config) (sectionName property : List Byte) : Option (Option ℕ) :=
  configReadFrom k sectionName property configIndexSize 0

/-- The loop over the characters of a value. -/
def readPtrFrom (sentinel : BitVec 64) : List Byte → BitVec 64 → Option (BitVec 64)
  | [], _ => none
  | c :: cs, ptrvalue =>
    if c = nul then some ptrvalue
    else
      let ptrvalue := ptrvalue <<< 4
      if 0x30 ≤ c ∧ c ≤ 0x39 then readPtrFrom sentinel cs (ptrvalue ||| (c - 0x30).setWidth 64)
      else if 0x61 ≤ c ∧ c ≤ 0x66 then
        readPtrFrom sentinel cs (ptrvalue ||| (c - 0x61 + 10).setWidth 64)
      else if 0x41 ≤ c ∧ c ≤ 0x46 then
        readPtrFrom sentinel cs (ptrvalue ||| (c - 0x41 + 10).setWidth 64)
      else some sentinel

def configReadAsPtr (k : Config) (sectionName property : List Byte) (sentinel : BitVec 64) :
    Option (BitVec 64) := do
  match ← configRead k sectionName property with
  | none => some sentinel
  | some value => readPtrFrom sentinel (k.text.drop value) 0

end Read
end Pinion64
