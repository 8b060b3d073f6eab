import Redon.Lib.Text

/-!
# JSON texts

A reader of JSON texts as RFC 8259 has them, over bytes. A string is read in two steps: first into
code units, which are the bytes that stand for themselves and the values of the escapes, and then
into bytes, where two escapes may be a surrogate pair. What the grammar of strings derives the
reader accepts, up to the closing quote (`readChars_append`).
-/

namespace Lib

namespace Json

/-- What a character of a string stands for: its own byte, or the value of a `\u` escape. -/
inductive CodeUnit where
  | byte (c : UInt8)
  | escaped (n : ℕ)
  deriving DecidableEq, Repr

def hexValue (c : UInt8) : Option ℕ :=
  if 48 ≤ c && c ≤ 57 then some (c.toNat - 48)
  else if 97 ≤ c && c ≤ 102 then some (c.toNat - 87)
  else if 65 ≤ c && c ≤ 70 then some (c.toNat - 55)
  else none

def hex4 (a b c d : UInt8) : Option ℕ :=
  match hexValue a, hexValue b, hexValue c, hexValue d with
  | some a, some b, some c, some d => some (((a * 16 + b) * 16 + c) * 16 + d)
  | _, _, _, _ => none

/-- The byte behind a backslash, but for `\u`. -/
def unescape (c : UInt8) : Option UInt8 :=
  if c = 34 ∨ c = 92 ∨ c = 47 then some c
  else if c = 98 then some 8
  else if c = 102 then some 12
  else if c = 110 then some 10
  else if c = 114 then some 13
  else if c = 116 then some 9
  else none

/-- A byte that stands for itself in a string. -/
def Plain (c : UInt8) : Prop := 32 ≤ c ∧ c ≠ 34 ∧ c ≠ 92

instance (c : UInt8) : Decidable (Plain c) := inferInstanceAs (Decidable (_ ∧ _ ∧ _))

/-- The grammar of what stands between the quotes of a string. -/
inductive Chars : Bytes → List CodeUnit → Prop
  | nil : Chars [] []
  | plain {c : UInt8} (hc : Plain c) {t : Bytes} {us : List CodeUnit} (h : Chars t us) :
    Chars (c :: t) (.byte c :: us)
  | escape {c e : UInt8} (hc : unescape c = some e) {t : Bytes} {us : List CodeUnit}
    (h : Chars t us) : Chars (92 :: c :: t) (.byte e :: us)
  | unicode {a b c d : UInt8} {n : ℕ} (hn : hex4 a b c d = some n) {t : Bytes}
    {us : List CodeUnit} (h : Chars t us) :
    Chars (92 :: 117 :: a :: b :: c :: d :: t) (.escaped n :: us)

/-- The characters up to the closing quote, and what is behind it. -/
def readChars : Bytes → Option (List CodeUnit × Bytes)
  | [] => none
  | 34 :: rest => some ([], rest)
  | 92 :: 117 :: a :: b :: c :: d :: rest =>
    match hex4 a b c d, readChars rest with
    | some n, some (us, rest) => some (.escaped n :: us, rest)
    | _, _ => none
  | 92 :: c :: rest =>
    match unescape c, readChars rest with
    | some e, some (us, rest) => some (.byte e :: us, rest)
    | _, _ => none
  | c :: rest =>
    if Plain c then (readChars rest).map fun (us, rest) => (.byte c :: us, rest) else none

theorem readChars_plain {c : UInt8} (hc : Plain c) (rest : Bytes) : readChars (c :: rest)
    = (readChars rest).map fun (us, rest) => (.byte c :: us, rest) := by
  rw [readChars]
  · exact if_pos hc
  · exact hc.2.1
  · exact fun _ _ _ _ _ h => absurd h hc.2.2
  · exact fun _ _ h => absurd h hc.2.2

theorem readChars_escape {c e : UInt8} (hc : unescape c = some e) (rest : Bytes) :
    readChars (92 :: c :: rest)
      = (readChars rest).map fun (us, rest) => (.byte e :: us, rest) := by
  have hu : c ≠ 117 := by
    rintro rfl
    simp [unescape] at hc
  rw [readChars]
  · rw [hc]
    cases readChars rest <;> rfl
  · exact fun _ _ _ _ _ h => absurd h hu

theorem readChars_append {t rest : Bytes} {us : List CodeUnit} (h : Chars t us) :
    readChars (t ++ 34 :: rest) = some (us, rest) := by
  induction h with
  | nil => rfl
  | plain hc h ih => rw [List.cons_append, readChars_plain hc, ih, Option.map_some]
  | escape hc h ih =>
    rw [List.cons_append, List.cons_append, readChars_escape hc, ih, Option.map_some]
  | unicode hn h ih => simp only [List.cons_append, readChars, hn, ih]

/-- The bytes of a code point. -/
def utf8 (n : ℕ) : Bytes :=
  let tail (k : ℕ) : UInt8 := UInt8.ofNat (0x80 + k % 64)
  if n < 0x80 then [UInt8.ofNat n]
  else if n < 0x800 then [UInt8.ofNat (0xC0 + n / 64), tail n]
  else if n < 0x10000 then [UInt8.ofNat (0xE0 + n / 4096), tail (n / 64), tail n]
  else [UInt8.ofNat (0xF0 + n / 262144), tail (n / 4096), tail (n / 64), tail n]

/-- The bytes of a string. Two escapes in a row may be a surrogate pair. -/
def bytes : List CodeUnit → Bytes
  | [] => []
  | .byte c :: us => c :: bytes us
  | .escaped n :: .escaped m :: us =>
    if 0xD800 ≤ n ∧ n < 0xDC00 ∧ 0xDC00 ≤ m ∧ m < 0xE000 then
      utf8 (0x10000 + (n - 0xD800) * 1024 + (m - 0xDC00)) ++ bytes us
    else utf8 n ++ bytes (.escaped m :: us)
  | .escaped n :: us => utf8 n ++ bytes us

/-- A code unit that is one byte, whatever is next to it. -/
def CodeUnit.single : CodeUnit → UInt8
  | .byte c => c
  | .escaped n => UInt8.ofNat n

/-- Escapes of ASCII characters are never part of a pair. -/
theorem bytes_ascii : ∀ {us : List CodeUnit}, (∀ n, CodeUnit.escaped n ∈ us → n < 0x80) →
    bytes us = us.map CodeUnit.single
  | [], _ => rfl
  | .byte c :: us, h => by
    rw [bytes, bytes_ascii fun n hn => h n (List.mem_cons_of_mem _ hn)]
    rfl
  | .escaped n :: us, h => by
    have hn : n < 0x80 := h n List.mem_cons_self
    have hus := bytes_ascii fun n hn => h n (List.mem_cons_of_mem _ hn)
    have hone : bytes (.escaped n :: us) = utf8 n ++ bytes us := by
      rcases us with _ | ⟨_ | m, us⟩
      · rfl
      · rfl
      · rw [bytes, if_neg]
        omega
    rw [hone, hus, utf8, if_pos hn]
    rfl

theorem chars_plain : ∀ {t : Bytes}, (∀ c ∈ t, Plain c) → Chars t (t.map .byte)
  | [], _ => .nil
  | _ :: _, h => .plain (h _ List.mem_cons_self) (chars_plain fun c hc =>
      h c (List.mem_cons_of_mem _ hc))

theorem bytes_plain : ∀ t : Bytes, bytes (t.map .byte) = t
  | [] => rfl
  | c :: t => congrArg (c :: ·) (bytes_plain t)

/-! ## Values -/

inductive Value where
  | null
  | bool (b : Bool)
  /-- The text of a number. -/
  | number (text : Bytes)
  | string (s : Bytes)
  | array (elements : List Value)
  | object (members : List (Bytes × Value))

def isWs (c : UInt8) : Bool := c == 32 || c == 9 || c == 10 || c == 13

def skipWs (text : Bytes) : Bytes := text.dropWhile isWs

/-- One digit or more. -/
def readDigits (text : Bytes) : Option (Bytes × Bytes) :=
  if (text.takeWhile isDigit).isEmpty then none
  else some (text.takeWhile isDigit, text.dropWhile isDigit)

def readInt : Bytes → Option (Bytes × Bytes)
  | 48 :: rest => some ([48], rest)
  | text => readDigits text

def readFrac : Bytes → Option (Bytes × Bytes)
  | 46 :: rest => (readDigits rest).map fun (ds, rest) => (46 :: ds, rest)
  | text => some ([], text)

def readExp : Bytes → Option (Bytes × Bytes)
  | c :: rest =>
    if c = 101 ∨ c = 69 then
      match rest with
      | 43 :: rest => (readDigits rest).map fun (ds, rest) => (c :: 43 :: ds, rest)
      | 45 :: rest => (readDigits rest).map fun (ds, rest) => (c :: 45 :: ds, rest)
      | rest => (readDigits rest).map fun (ds, rest) => (c :: ds, rest)
    else some ([], c :: rest)
  | [] => some ([], [])

def readNumber (text : Bytes) : Option (Value × Bytes) := do
  let (sign, rest) := match text with
    | 45 :: rest => (([45] : Bytes), rest)
    | text => ([], text)
  let (int, rest) ← readInt rest
  let (frac, rest) ← readFrac rest
  let (exp, rest) ← readExp rest
  return (.number (sign ++ int ++ frac ++ exp), rest)

def readLiteral (text : Bytes) : Option (Value × Bytes) :=
  if (ascii "true").isPrefixOf text then some (.bool true, text.drop 4)
  else if (ascii "false").isPrefixOf text then some (.bool false, text.drop 5)
  else if (ascii "null").isPrefixOf text then some (.null, text.drop 4)
  else readNumber text

mutual

/-- A value, behind white space, and what is behind it. -/
def readValue : ℕ → Bytes → Option (Value × Bytes)
  | 0, _ => none
  | fuel + 1, text =>
    match skipWs text with
    | 34 :: rest => (readChars rest).map fun (us, rest) => (.string (bytes us), rest)
    | 123 :: rest =>
      match skipWs rest with
      | 125 :: rest => some (.object [], rest)
      | rest => (readMembers fuel rest).map fun (ms, rest) => (.object ms, rest)
    | 91 :: rest =>
      match skipWs rest with
      | 93 :: rest => some (.array [], rest)
      | rest => (readElements fuel rest).map fun (vs, rest) => (.array vs, rest)
    | rest => readLiteral rest

/-- The members of an object, up to its closing brace. -/
def readMembers : ℕ → Bytes → Option (List (Bytes × Value) × Bytes)
  | 0, _ => none
  | fuel + 1, text =>
    match skipWs text with
    | 34 :: rest =>
      match readChars rest with
      | none => none
      | some (us, rest) =>
        match skipWs rest with
        | 58 :: rest =>
          match readValue fuel rest with
          | none => none
          | some (v, rest) =>
            match skipWs rest with
            | 44 :: rest =>
              (readMembers fuel rest).map fun (ms, rest) => ((bytes us, v) :: ms, rest)
            | 125 :: rest => some ([(bytes us, v)], rest)
            | _ => none
        | _ => none
    | _ => none

/-- The elements of an array, up to its closing bracket. -/
def readElements : ℕ → Bytes → Option (List Value × Bytes)
  | 0, _ => none
  | fuel + 1, text =>
    match readValue fuel text with
    | none => none
    | some (v, rest) =>
      match skipWs rest with
      | 44 :: rest => (readElements fuel rest).map fun (vs, rest) => (v :: vs, rest)
      | 93 :: rest => some ([v], rest)
      | _ => none

end

/-- A text that is one value. Every call takes a byte of it or stands for one that was taken, so
twice the length of the text is enough fuel. -/
def parse (text : Bytes) : Option Value :=
  match readValue (2 * text.length) text with
  | none => none
  | some (v, rest) => if (skipWs rest).isEmpty then some v else none

section Read

variable {fuel : ℕ} {t rest text : Bytes} {us : List CodeUnit} {v : Value}
  {ms : List (Bytes × Value)}

theorem readValue_string (h : Chars t us) (fuel : ℕ) (rest : Bytes) :
    readValue (fuel + 1) (34 :: (t ++ 34 :: rest)) = some (.string (bytes us), rest) := by
  have hws : skipWs (34 :: (t ++ 34 :: rest)) = 34 :: (t ++ 34 :: rest) := rfl
  rw [readValue, hws]
  simp only [readChars_append h, Option.map_some]

theorem readValue_bool (b : Bool) (fuel : ℕ) (rest : Bytes) :
    readValue (fuel + 1) (ascii (if b then "true" else "false") ++ rest)
      = some (.bool b, rest) := by
  cases b <;> rfl

theorem readValue_object (h : readMembers fuel (34 :: text) = some (ms, rest)) :
    readValue (fuel + 1) (123 :: 34 :: text) = some (.object ms, rest) := by
  have hread : readValue (fuel + 1) (123 :: 34 :: text)
      = (readMembers fuel (34 :: text)).map fun (ms, rest) => (.object ms, rest) := rfl
  rw [hread, h, Option.map_some]

/-- A member and a comma. -/
theorem readMembers_cons (h : Chars t us) (hv : readValue fuel text = some (v, 44 :: rest)) :
    readMembers (fuel + 1) (34 :: (t ++ 34 :: 58 :: text))
      = (readMembers fuel rest).map fun (ms, rest) => ((bytes us, v) :: ms, rest) := by
  have hws : skipWs (34 :: (t ++ 34 :: 58 :: text)) = 34 :: (t ++ 34 :: 58 :: text) := rfl
  have hws' : skipWs (58 :: text) = 58 :: text := rfl
  have hws'' : skipWs (44 :: rest) = 44 :: rest := rfl
  rw [readMembers, hws]
  simp only [readChars_append h, hws', hv, hws'']

/-- The last member. -/
theorem readMembers_last (h : Chars t us) (hv : readValue fuel text = some (v, 125 :: rest)) :
    readMembers (fuel + 1) (34 :: (t ++ 34 :: 58 :: text)) = some ([(bytes us, v)], rest) := by
  have hws : skipWs (34 :: (t ++ 34 :: 58 :: text)) = 34 :: (t ++ 34 :: 58 :: text) := rfl
  have hws' : skipWs (58 :: text) = 58 :: text := rfl
  have hws'' : skipWs (125 :: rest) = 125 :: rest := rfl
  rw [readMembers, hws]
  simp only [readChars_append h, hws', hv, hws'']

theorem parse_of_readValue (h : readValue (2 * text.length) text = some (v, [])) :
    parse text = some v := by
  rw [parse, h]
  rfl

end Read

end Json

end Lib
