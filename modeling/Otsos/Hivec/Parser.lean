import Mathlib.Algebra.Ring.Int.Defs
import Otsos.Foundation.Loop
import Otsos.Hivec.Lexer

/-! The parser of the hive compiler. -/
namespace Otsos.Hivec
open Bytes
open List

/-- `TYPE_IDS` -/
inductive ValueType where
  | string | bool | i32 | u32 | u64 | ipv4 | bytes | multiString
deriving DecidableEq

def ValueType.id : ValueType → UInt32
  | .string => 1
  | .bool => 2
  | .i32 => 3
  | .u32 => 4
  | .u64 => 5
  | .ipv4 => 6
  | .bytes => 7
  | .multiString => 8

def ValueType.all : List (String × ValueType) :=
  [("string", .string), ("bool", .bool), ("i32", .i32), ("u32", .u32), ("u64", .u64),
    ("ipv4", .ipv4), ("bytes", .bytes), ("multi_string", .multiString)]

/-- The entry of a table with a given name. -/
def named {α : Type} (table : List (String × α)) (text : Text) : Option α :=
  (table.find? fun p => p.1.toList == text).map (·.2)

def attrFlags : List (String × UInt32) :=
  [("protected", 1), ("volatile", 2), ("readonly", 4), ("boot", 8)]

def accessShifts : List (String × UInt32) :=
  [("read", hivefsAccessReadShift), ("add", hivefsAccessAddShift), ("edit", hivefsAccessEditShift)]

def accessSubjects : List (String × UInt32) :=
  [("user", hivefsAccessUser), ("kusr", hivefsAccessKusr)]

structure Value where
  name : Text
  type : ValueType
  flags : UInt32
  data : List UInt8
deriving DecidableEq

structure Key where
  path : Text
  flags : UInt32
  values : List Value
deriving DecidableEq

structure Hive where
  name : Text
  flags : UInt32
  keys : List Key
deriving DecidableEq

/-- `str.encode("utf-8")` -/
def utf8 (text : Text) : List UInt8 := text.flatMap String.utf8EncodeChar

namespace Parser

variable (u : Unicode) (filename : String)

/-- An error at the current token. -/
def fail {α : Type} (ts : List Token) (msg : String) : Except Exn α :=
  match ts with
  | [] => .error .index
  | t :: _ => .error (errorAt filename t.line t.col msg)

def accept (kind : Kind) (text : Option Text) (ts : List Token) :
    Except Exn (Option Token × List Token) :=
  match ts with
  | [] => .error .index
  | t :: rest => if t.kind = kind ∧ text.all (· == t.text) then .ok (some t, rest) else .ok (none, ts)

def kindName : Kind → String
  | .sym c => c.toString
  | .string => "STRING"
  | .id => "ID"
  | .int => "INT"
  | .ipv4 => "IPV4"
  | .eof => "EOF"

def expect (kind : Kind) (text : Option Text) (ts : List Token) : Except Exn (Token × List Token) :=
  do
  match ← accept kind text ts with
  | (some t, rest) => return (t, rest)
  | (none, ts) => fail filename ts ("expected " ++ (text.map String.ofList).getD (kindName kind))

def expectId (text : Option Text) (ts : List Token) : Except Exn (Text × List Token) := do
  let (t, ts) ← expect filename .id text ts
  return (t.text, ts)

/-- The loop of `parse_access` behind the parenthesis. -/
def parseAccessFrom : Nat → List Text → UInt32 → List Token → Except Exn (UInt32 × List Token)
  | 0, _, _, _ => .error .endless
  | fuel + 1, seen, flags, ts => do
    let (op, ts) ← expectId filename none ts
    match named accessShifts op with
    | none => fail filename ts ("unknown access op " ++ String.ofList op)
    | some shift =>
      if op ∈ seen then fail filename ts ("duplicate access op " ++ String.ofList op)
      else do
        let (_, ts) ← expect filename (.sym '=') none ts
        let (subject, ts) ← expectId filename none ts
        match named accessSubjects subject with
        | none => fail filename ts ("unknown access subject " ++ String.ofList subject)
        | some level =>
          let flags := (flags &&& ~~~(hivefsAccessMask <<< shift)) ||| (level <<< shift)
          match ← accept (.sym ')') none ts with
          | (some _, ts) => return (flags, ts)
          | (none, ts) => do
            let (_, ts) ← expect filename (.sym ',') none ts
            parseAccessFrom fuel (op :: seen) flags ts

def parseAccess (flags : UInt32) (ts : List Token) : Except Exn (UInt32 × List Token) := do
  let (_, ts) ← expect filename (.sym '(') none ts
  match ← accept (.sym ')') none ts with
  | (some _, ts) => fail filename ts "@access needs at least one rule"
  | (none, ts) => parseAccessFrom filename ts.length [] flags ts

/-- The loop of `parse_attrs`. -/
def parseAttrsFrom : Nat → UInt32 → List Token → Except Exn (UInt32 × List Token)
  | 0, _, _ => .error .endless
  | fuel + 1, flags, ts => do
    match ← accept (.sym '@') none ts with
    | (none, ts) => return (flags, ts)
    | (some _, ts) => do
      let (name, ts) ← expectId filename none ts
      if name = "access".toList then do
        let (flags, ts) ← parseAccess filename flags ts
        parseAttrsFrom fuel flags ts
      else
        match named attrFlags name with
        | none => fail filename ts ("unknown attr @" ++ String.ofList name)
        | some flag => parseAttrsFrom fuel (flags ||| flag) ts

def parseAttrs (ts : List Token) : Except Exn (UInt32 × List Token) :=
  parseAttrsFrom filename ts.length 0 ts

/-- The loop of `parse_string_list` behind the bracket. -/
def parseStringsFrom : Nat → List Token → Except Exn (List Text × List Token)
  | 0, _ => .error .endless
  | fuel + 1, ts => do
    let (t, ts) ← expect filename .string none ts
    match ← accept (.sym ']') none ts with
    | (some _, ts) => return ([t.text], ts)
    | (none, ts) => do
      let (_, ts) ← expect filename (.sym ',') none ts
      let (rest, ts) ← parseStringsFrom fuel ts
      return (t.text :: rest, ts)

def parseStringList (ts : List Token) : Except Exn (List Text × List Token) := do
  let (_, ts) ← expect filename (.sym '[') none ts
  match ← accept (.sym ']') none ts with
  | (some _, ts) => return ([], ts)
  | (none, ts) => parseStringsFrom filename ts.length ts

def readInt (min max : Int) (ts : List Token) : Except Exn (Int × List Token) := do
  let (t, ts) ← expect filename .int none ts
  match u.int10 t.text with
  | none => .error (errorAt filename t.line t.col "bad integer")
  | some val =>
    if val < min ∨ val > max then .error (errorAt filename t.line t.col "integer out of range")
    else return (val, ts)

/-- `str.split(".")` -/
def splitDots (text : Text) : List Text := text.splitOn '.'

/-- One octet; a digit that `int` does not take is a `ValueError` that nothing catches. -/
def readOctet (t : Token) (part : Text) : Except Exn UInt8 :=
  if part = [] ∨ !part.all u.isdigit then .error (errorAt filename t.line t.col "bad ipv4 address")
  else
    match u.int10 part with
    | none => .error .value
    | some num =>
      if num > 255 then .error (errorAt filename t.line t.col "ipv4 octet out of range")
      else .ok (UInt8.ofNat num.toNat)

def readIpv4 (ts : List Token) : Except Exn (List UInt8 × List Token) := do
  let (t, ts) ← expect filename .ipv4 none ts
  let parts := splitDots t.text
  if parts.length ≠ 4 then .error (errorAt filename t.line t.col "bad ipv4 address")
  else do
    let nums ← parts.mapM (readOctet u filename t)
    return (nums, ts)

def hexDigit (c : Char) : Option Nat :=
  if '0' ≤ c ∧ c ≤ '9' then some (c.toNat - '0'.toNat)
  else if 'a' ≤ c ∧ c ≤ 'f' then some (c.toNat - 'a'.toNat + 10)
  else if 'A' ≤ c ∧ c ≤ 'F' then some (c.toNat - 'A'.toNat + 10)
  else none

/-- `bytes.fromhex` of a text without blanks; `none` is a `ValueError`. -/
def fromHex : Text → Option (List UInt8)
  | [] => some []
  | [_] => none
  | a :: b :: rest => do
    let high ← hexDigit a
    let low ← hexDigit b
    let bytes ← fromHex rest
    return UInt8.ofNat (16 * high + low) :: bytes

def readBytes (ts : List Token) : Except Exn (List UInt8 × List Token) := do
  let (_, ts) ← expectId filename (some "hex".toList) ts
  let (t, ts) ← expect filename .string none ts
  let text := t.text.filter (!u.isspace ·)
  if text.length % 2 ≠ 0 then .error (errorAt filename t.line t.col "hex string has odd length")
  else
    match fromHex text with
    | none => .error (errorAt filename t.line t.col "bad hex string")
    | some bytes => return (bytes, ts)

/-- `b"\0".join(..) + b"\0"` -/
def joinStrings (vals : List Text) : List UInt8 := ((vals.map utf8).intersperse [0]).flatten ++ [0]

def encodeValue (type : ValueType) (ts : List Token) : Except Exn (List UInt8 × List Token) :=
  match type with
  | .string => do
    let (t, ts) ← expect filename .string none ts
    return (utf8 t.text, ts)
  | .bool => do
    let (t, ts) ← expect filename .id none ts
    if t.text = "true".toList then return ([1], ts)
    else if t.text = "false".toList then return ([0], ts)
    else fail filename ts "bool must be true or false"
  | .i32 => do
    let (val, ts) ← readInt u filename (-2147483648) 2147483647 ts
    return (le32 (UInt32.ofNat (val % 2 ^ 32).toNat), ts)
  | .u32 => do
    let (val, ts) ← readInt u filename 0 0xFFFFFFFF ts
    return (le32 (UInt32.ofNat val.toNat), ts)
  | .u64 => do
    let (val, ts) ← readInt u filename 0 0xFFFFFFFFFFFFFFFF ts
    return (le32 (UInt32.ofNat (val.toNat % 2 ^ 32)) ++ le32 (UInt32.ofNat (val.toNat / 2 ^ 32)), ts)
  | .ipv4 => readIpv4 u filename ts
  | .bytes => readBytes u filename ts
  | .multiString => do
    let (vals, ts) ← parseStringList filename ts
    return (joinStrings vals, ts)

def parseValue (ts : List Token) : Except Exn (Value × List Token) := do
  let (typeName, ts) ← expectId filename none ts
  match named ValueType.all typeName with
  | none => fail filename ts ("unknown type " ++ String.ofList typeName)
  | some type => do
    let (name, ts) ← expectId filename none ts
    let (flags, ts) ← parseAttrs filename ts
    let (_, ts) ← expect filename (.sym '=') none ts
    let (data, ts) ← encodeValue u filename type ts
    return (⟨name, type, flags, data⟩, ts)

/-- The loop of `parse_key`; `values` are those read so far. -/
def parseValues : Nat → List Value → List Token → Except Exn (List Value × List Token)
  | 0, _, _ => .error .endless
  | fuel + 1, values, ts => do
    match ← accept (.sym '}') none ts with
    | (some _, ts) => return (values, ts)
    | (none, ts) => do
      let (value, ts) ← parseValue u filename ts
      if value.name ∈ values.map (·.name) then fail filename ts ("duplicate value " ++ String.ofList value.name)
      else parseValues fuel (values ++ [value]) ts

def parseKey (ts : List Token) : Except Exn (Key × List Token) := do
  let (_, ts) ← expectId filename (some "key".toList) ts
  let (path, ts) ← expectId filename none ts
  let (flags, ts) ← parseAttrs filename ts
  let (_, ts) ← expect filename (.sym '{') none ts
  let (values, ts) ← parseValues u filename ts.length [] ts
  return (⟨path, flags, values⟩, ts)

/-- The loop of `parse`; `keys` are those read so far. -/
def parseKeys : Nat → List Key → List Token → Except Exn (List Key × List Token)
  | 0, _, _ => .error .endless
  | fuel + 1, keys, ts => do
    match ← accept (.sym '}') none ts with
    | (some _, ts) => return (keys, ts)
    | (none, ts) => do
      let (key, ts) ← parseKey u filename ts
      if key.path ∈ keys.map (·.path) then fail filename ts ("duplicate key " ++ String.ofList key.path)
      else parseKeys fuel (keys ++ [key]) ts

/-- `access_defined` -/
def accessDefined (flags : UInt32) : Bool :=
  accessShifts.any fun p => ((flags >>> p.2) &&& hivefsAccessMask) != hivefsAccessInherit

def parse (ts : List Token) : Except Exn Hive := do
  let (_, ts) ← expectId filename (some "hive".toList) ts
  let (name, ts) ← expectId filename none ts
  let (flags, ts) ← parseAttrs filename ts
  let flags := if accessDefined flags then flags else flags ||| hivefsAccessDefault
  let (_, ts) ← expect filename (.sym '{') none ts
  let (keys, ts) ← parseKeys u filename ts.length [] ts
  let _ ← expect filename .eof none ts
  return ⟨name, flags, keys⟩

end Parser

/-- `parse_file` on the text of a file whose name without directory and extension is `stem`. -/
def parseFile (u : Unicode) (filename : String) (stem text : Text) : Except Exn Hive := do
  let tokens ← Lexer.lex u filename text
  let hive ← Parser.parse u filename tokens
  if stem ≠ hive.name then .error (.hive (filename ++ ": hive name must match filename stem"))
  else return hive

/-! What the parser has made sure of when it accepts. -/

/-- The words among the tokens are words of the language. -/
def Words (u : Unicode) (ts : List Token) : Prop := ∀ t ∈ ts, t.kind = .id → Lexer.IsId u t.text

structure Value.Good (u : Unicode) (value : Value) : Prop where
  name : Lexer.IsId u value.name

structure Key.Good (u : Unicode) (key : Key) : Prop where
  path : Lexer.IsId u key.path
  values : ∀ value ∈ key.values, value.Good u
  names : (key.values.map (·.name)).Nodup

structure Hive.Good (u : Unicode) (hive : Hive) : Prop where
  name : Lexer.IsId u hive.name
  keys : ∀ key ∈ hive.keys, key.Good u
  paths : (hive.keys.map (·.path)).Nodup

namespace Parser

variable {α : Type}

/-- What a parser returns satisfies `post`, and the words that it leaves are words of the
language. -/
def Reads (u : Unicode) (x : Except Exn (α × List Token)) (post : α → Prop) : Prop :=
  ∀ a rest, x = .ok (a, rest) → Words u rest ∧ post a

theorem Reads.ok (words : Words u ts) (holds : post a) : Reads u (.ok (a, ts)) post := by
  intro _ _ same
  cases same
  exact ⟨words, holds⟩

theorem Reads.error : Reads u (.error e) post := by
  intro _ _ same
  cases same

theorem Reads.fail : Reads u (fail filename ts msg) post := by
  cases ts <;> exact .error

theorem Reads.bind {f : α × List Token → Except Exn (β × List Token)} (first : Reads u x q)
    (later : ∀ a ts, Words u ts → q a → Reads u (f (a, ts)) post) : Reads u (x >>= f) post := by
  intro b rest ran
  obtain ⟨⟨a, ts⟩, ran₁, ran₂⟩ := Loop.except_bind_ok ran
  obtain ⟨words, holds⟩ := first a ts ran₁
  exact later a ts words holds b rest ran₂

section
variable (words : Words u ts)
include words

theorem accept_reads : Reads u (accept kind text ts) fun answer => ∀ t ∈ answer, t ∈ ts ∧
    t.kind = kind := by
  cases ts with
  | nil => exact .error
  | cons t later =>
    rw [accept]
    split
    · next matched =>
      refine .ok (fun t member => words t (mem_cons_of_mem _ member)) fun _ same => ?_
      cases same
      exact ⟨mem_cons_self, matched.1⟩
    · exact .ok words fun _ none_ => by cases none_

theorem expect_reads : Reads u (expect filename kind text ts) fun t => t ∈ ts ∧ t.kind = kind := by
  refine (accept_reads words).bind fun answer _ words found => ?_
  cases answer with
  | none => exact .fail
  | some t => exact .ok words (found t rfl)

theorem expectId_reads : Reads u (expectId filename text ts) (Lexer.IsId u) :=
  (expect_reads words).bind fun t _ after here => .ok after (words t here.1 here.2)

theorem parseAccessFrom_reads :
    Reads u (parseAccessFrom filename fuel seen flags ts) fun _ => True := by
  induction fuel generalizing seen flags ts with
  | zero => exact .error
  | succ fuel ih =>
    refine (expectId_reads words).bind fun _ _ words _ => ?_
    dsimp only
    split
    · exact .fail
    split
    · exact .fail
    refine (expect_reads words).bind fun _ _ words _ => ?_
    refine (expectId_reads words).bind fun _ _ words _ => ?_
    dsimp only
    split
    · exact .fail
    refine (accept_reads words).bind fun answer _ words _ => ?_
    cases answer with
    | some => exact .ok words trivial
    | none => exact (expect_reads words).bind fun _ _ words _ => ih words

theorem parseAccess_reads : Reads u (parseAccess filename flags ts) fun _ => True := by
  refine (expect_reads words).bind fun _ _ words _ => ?_
  refine (accept_reads words).bind fun answer _ words _ => ?_
  cases answer with
  | some => exact .fail
  | none => exact parseAccessFrom_reads words

theorem parseAttrsFrom_reads : Reads u (parseAttrsFrom filename fuel flags ts) fun _ => True := by
  induction fuel generalizing flags ts with
  | zero => exact .error
  | succ fuel ih =>
    refine (accept_reads words).bind fun answer _ words _ => ?_
    cases answer with
    | none => exact .ok words trivial
    | some =>
      refine (expectId_reads words).bind fun _ _ words _ => ?_
      dsimp only
      split
      · exact (parseAccess_reads words).bind fun _ _ words _ => ih words
      split
      · exact .fail
      · exact ih words

theorem parseAttrs_reads : Reads u (parseAttrs filename ts) fun _ => True :=
  parseAttrsFrom_reads words

theorem parseStringsFrom_reads : Reads u (parseStringsFrom filename fuel ts) fun _ => True := by
  induction fuel generalizing ts with
  | zero => exact .error
  | succ fuel ih =>
    refine (expect_reads words).bind fun _ _ words _ => ?_
    refine (accept_reads words).bind fun answer _ words _ => ?_
    cases answer with
    | some => exact .ok words trivial
    | none =>
      refine (expect_reads words).bind fun _ _ words _ => ?_
      exact (ih words).bind fun _ _ words _ => .ok words trivial

theorem readInt_reads {min max : Int} : Reads u (readInt u filename min max ts) fun _ => True := by
  refine (expect_reads words).bind fun _ _ words _ => ?_
  dsimp only
  split
  · exact .error
  split
  · exact .error
  · exact .ok words trivial

theorem encodeValue_reads : Reads u (encodeValue u filename type ts) fun _ => True := by
  cases type with
  | string => exact (expect_reads words).bind fun _ _ words _ => .ok words trivial
  | bool =>
    refine (expect_reads words).bind fun _ _ words _ => ?_
    dsimp only
    split
    · exact .ok words trivial
    split
    · exact .ok words trivial
    · exact .fail
  | i32 | u32 | u64 => exact (readInt_reads words).bind fun _ _ words _ => .ok words trivial
  | ipv4 =>
    refine (expect_reads words).bind fun t _ words _ => ?_
    dsimp only
    split
    · exact .error
    · cases (splitDots t.text).mapM (readOctet u filename t) with
      | error e => exact .error
      | ok nums => exact .ok words trivial
  | bytes =>
    refine (expectId_reads words).bind fun _ _ words _ => ?_
    refine (expect_reads words).bind fun _ _ words _ => ?_
    dsimp only
    split
    · exact .error
    split
    · exact .error
    · exact .ok words trivial
  | multiString =>
    refine Reads.bind (q := fun _ => True) ?_ fun _ _ words _ => .ok words trivial
    refine (expect_reads words).bind fun _ _ words _ => ?_
    refine (accept_reads words).bind fun answer _ words _ => ?_
    cases answer with
    | some => exact .ok words trivial
    | none => exact parseStringsFrom_reads words

theorem parseValue_reads : Reads u (parseValue u filename ts) (Value.Good u) := by
  refine (expectId_reads words).bind fun _ _ words _ => ?_
  dsimp only
  split
  · exact .fail
  refine (expectId_reads words).bind fun _ _ words isId => ?_
  refine (parseAttrs_reads words).bind fun _ _ words _ => ?_
  refine (expect_reads words).bind fun _ _ words _ => ?_
  exact (encodeValue_reads words).bind fun _ _ words _ => .ok words ⟨isId⟩

end

theorem nodup_snoc {l : List α} (distinct : l.Nodup) (fresh : a ∉ l) : (l ++ [a]).Nodup := by
  rw [nodup_append]
  refine ⟨distinct, by simp, fun x inside y last => ?_⟩
  rw [mem_singleton.mp last]
  rintro rfl
  exact fresh inside

theorem parseValues_reads (words : Words u ts) (good : ∀ value ∈ before, value.Good u)
    (distinct : (before.map (·.name)).Nodup) : Reads u (parseValues u filename fuel before ts) fun values =>
      (∀ value ∈ values, value.Good u) ∧ (values.map (·.name)).Nodup := by
  induction fuel generalizing before ts with
  | zero => exact .error
  | succ fuel ih =>
    refine (accept_reads words).bind fun answer _ words _ => ?_
    cases answer with
    | some => exact .ok words ⟨good, distinct⟩
    | none =>
      refine (parseValue_reads words).bind fun value _ words here => ?_
      dsimp only
      split
      · exact .fail
      next fresh =>
      refine ih words (forall_mem_append.mpr ⟨good, forall_mem_singleton.mpr here⟩) ?_
      rw [map_append]
      exact nodup_snoc distinct fresh

theorem parseKey_reads (words : Words u ts) : Reads u (parseKey u filename ts) (Key.Good u) := by
  refine (expectId_reads words).bind fun _ _ words _ => ?_
  refine (expectId_reads words).bind fun _ _ words isId => ?_
  refine (parseAttrs_reads words).bind fun _ _ words _ => ?_
  refine (expect_reads words).bind fun _ _ words _ => ?_
  refine (parseValues_reads words (forall_mem_nil _) nodup_nil).bind fun _ _ words good => ?_
  exact .ok words ⟨isId, good.1, good.2⟩

theorem parseKeys_reads (words : Words u ts) (good : ∀ key ∈ before, key.Good u)
    (distinct : (before.map (·.path)).Nodup) : Reads u (parseKeys u filename fuel before ts) fun keys =>
      (∀ key ∈ keys, key.Good u) ∧ (keys.map (·.path)).Nodup := by
  induction fuel generalizing before ts with
  | zero => exact .error
  | succ fuel ih =>
    refine (accept_reads words).bind fun answer _ words _ => ?_
    cases answer with
    | some => exact .ok words ⟨good, distinct⟩
    | none =>
      refine (parseKey_reads words).bind fun key _ words here => ?_
      dsimp only
      split
      · exact .fail
      next fresh =>
      refine ih words (forall_mem_append.mpr ⟨good, forall_mem_singleton.mpr here⟩) ?_
      rw [map_append]
      exact nodup_snoc distinct fresh

theorem parse_good (words : Words u ts) (ran : parse u filename ts = .ok hive) : hive.Good u := by
  obtain ⟨⟨_, _⟩, keyword, ran⟩ := Loop.except_bind_ok ran
  obtain ⟨words, -⟩ := expectId_reads words _ _ keyword
  obtain ⟨⟨_, _⟩, nameRead, ran⟩ := Loop.except_bind_ok ran
  obtain ⟨words, isId⟩ := expectId_reads words _ _ nameRead
  obtain ⟨⟨_, _⟩, attrs, ran⟩ := Loop.except_bind_ok ran
  obtain ⟨words, -⟩ := parseAttrs_reads words _ _ attrs
  obtain ⟨⟨_, _⟩, opened, ran⟩ := Loop.except_bind_ok ran
  obtain ⟨words, -⟩ := expect_reads words _ _ opened
  obtain ⟨⟨_, _⟩, read, ran⟩ := Loop.except_bind_ok ran
  obtain ⟨-, good, distinct⟩ := parseKeys_reads words (forall_mem_nil _) nodup_nil _ _ read
  obtain ⟨_, _, ran⟩ := Loop.except_bind_ok ran
  cases ran
  exact ⟨isId, good, distinct⟩

end Parser

theorem parseFile_good (ran : parseFile u filename stem text = .ok hive) : hive.Good u := by
  obtain ⟨_, lexed, ran⟩ := Loop.except_bind_ok ran
  obtain ⟨_, read, ran⟩ := Loop.except_bind_ok ran
  have good := Parser.parse_good (Lexer.lexFrom_ids lexed) read
  split at ran
  · cases ran
  · cases ran
    exact good

end Otsos.Hivec
