import LiveForm.Toml.Reader

/-!
# Quoted text in TOML

Text between double quotes has escapes, text between single quotes has none. Between three quotes of
either kind it can run over several lines.
-/

set_option autoImplicit false

namespace LiveForm.Toml

/-- The value of a hexadecimal digit. -/
def hexDigit? (c : Char) : Option Nat :=
  if c.isDigit then some (c.toNat - '0'.toNat)
  else if 'a' ≤ c ∧ c ≤ 'f' then some (c.toNat - 'a'.toNat + 10)
  else if 'A' ≤ c ∧ c ≤ 'F' then some (c.toNat - 'A'.toNat + 10)
  else none

/-- The character whose code point is written in exactly `width` hexadecimal digits at the front of a
text. -/
def codePoint? (width : Nat) (cs : List Char) : Option Char := do
  let digits ← (cs.take width).mapM hexDigit?
  guard (digits.length = width)
  let point := digits.foldl (fun n d => 16 * n + d) 0
  if point.isValidChar then some (Char.ofNat point) else none

/-- What the text behind a backslash stands for, with the number of characters it takes. -/
def escaped? : List Char → Option (Char × Nat)
  | [] => none
  | c :: rest =>
    match c with
    | 'b' => some ('\x08', 1)
    | 't' => some ('\t', 1)
    | 'n' => some ('\n', 1)
    | 'f' => some ('\x0c', 1)
    | 'r' => some ('\r', 1)
    | '"' => some ('"', 1)
    | '\\' => some ('\\', 1)
    | 'u' => (codePoint? 4 rest).map (·, 5)
    | 'U' => (codePoint? 8 rest).map (·, 9)
    | _ => none

/-- What is left when a character and some more are taken is shorter. -/
theorem length_drop_lt (n : Nat) (c : Char) (cs : List Char) :
    (cs.drop n).length < (c :: cs).length := by
  simp only [List.length_drop, List.length_cons]
  omega

/-- Reads the text up to the closing quote on the same line. Only between double quotes does a
backslash start an escape. -/
def lineText? (quote : Char) : List Char → Option (List Char × List Char)
  | [] => none
  | c :: rest =>
    if c = quote then some ([], rest)
    else if c = '\\' && quote = '"' then
      match escaped? rest with
      | some (e, taken) => (lineText? quote (rest.drop taken)).map fun (text, after) => (e :: text, after)
      | none => none
    else if isTextual c then (lineText? quote rest).map fun (text, after) => (c :: text, after)
    else none
termination_by cs => cs.length
decreasing_by
  · exact length_drop_lt taken c rest
  · exact Nat.lt_succ_self rest.length

/-- The text behind a line end and the blanks and further line ends that follow it, if only blanks stand
before that line end. -/
def afterLineEnd? (cs : List Char) : Option (List Char) :=
  match cs.dropWhile isBlank with
  | '\n' :: rest => some (rest.dropWhile fun c => isBlank c || c = '\n')
  | _ => none

/-- Dropping characters makes no list longer. -/
theorem length_dropWhile_le (p : Char → Bool) (cs : List Char) : (cs.dropWhile p).length ≤ cs.length :=
  (List.dropWhile_sublist p).length_le

/-- What follows a line end is no longer than the whole. -/
theorem length_afterLineEnd?_le {cs rest : List Char} (h : afterLineEnd? cs = some rest) :
    rest.length ≤ cs.length := by
  unfold afterLineEnd? at h
  split at h
  next more hd =>
    have hl := length_dropWhile_le isBlank cs
    have hm := length_dropWhile_le (fun c => isBlank c || c = '\n') more
    simp only [hd, List.length_cons] at hl
    cases h
    omega
  next => cases h

/-- Reads the text up to three closing quotes, over any number of lines. One or two quotes belong to the
text, and so do up to two in front of the closing ones. Between double quotes a backslash at the end of
a line joins it to the next word. -/
def blockText? (quote : Char) : List Char → Option (List Char × List Char)
  | [] => none
  | c :: rest =>
    if c = quote then
      let more := (rest.takeWhile (· = quote)).length
      if more < 2 then
        (blockText? quote (rest.drop more)).map fun (text, after) =>
          (List.replicate (more + 1) quote ++ text, after)
      else some (List.replicate (min more 4 - 2) quote, rest.drop (min more 4))
    else if c = '\\' && quote = '"' then
      match _h : afterLineEnd? rest with
      | some next => blockText? quote next
      | none =>
        match escaped? rest with
        | some (e, taken) =>
          (blockText? quote (rest.drop taken)).map fun (text, after) => (e :: text, after)
        | none => none
    else if isTextual c || c = '\n' then
      (blockText? quote rest).map fun (text, after) => (c :: text, after)
    else none
termination_by cs => cs.length
decreasing_by
  · exact length_drop_lt _ c rest
  · exact Nat.lt_succ_of_le (length_afterLineEnd?_le _h)
  · exact length_drop_lt taken c rest
  · exact Nat.lt_succ_self rest.length

namespace Reader

/-- Takes a quoted text of one line. -/
def lineQuoted : Reader String := do
  let quote ← one fun c => c = '"' || c = '\''
  String.ofList <$> (lineText? quote : Reader (List Char))

/-- Takes a text between three quotes. A line end right behind the opening ones is left out. -/
def blockQuoted : Reader String := do
  let quote ← one fun c => c = '"' || c = '\''
  char quote
  char quote
  discard (optional? (char '\n'))
  String.ofList <$> (blockText? quote : Reader (List Char))

/-- Takes a quoted text. -/
def quoted : Reader String :=
  blockQuoted <|> lineQuoted

end Reader

end LiveForm.Toml
