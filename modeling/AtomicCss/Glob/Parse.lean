import AtomicCss.Glob.Basic

/-!
Reading globs. Open brackets and braces, a closing brace without an opening one, a descending range
and a backslash at the end are errors.
-/

namespace AtomicCss.Glob

structure Builder where
  /-- The tokens of the alternative that is being read. -/
  current : List Token
  /-- For each open brace, innermost first: the tokens in front of it and its finished
  alternatives. -/
  groups : List (List Token × List (List Token))

namespace Builder

def empty : Builder := ⟨[], []⟩

def push (builder : Builder) (token : Token) : Builder :=
  { builder with current := builder.current ++ [token] }

def inGroup (builder : Builder) : Bool :=
  !builder.groups.isEmpty

def openGroup (builder : Builder) : Builder :=
  ⟨[], (builder.current, []) :: builder.groups⟩

/-- A comma ends an alternative inside braces and is a character elsewhere. -/
def comma (builder : Builder) : Builder :=
  match builder.groups with
  | [] => builder.push (.literal ',')
  | (before, finished) :: groups => ⟨[], (before, finished ++ [builder.current]) :: groups⟩

def closeGroup? (builder : Builder) : Option Builder :=
  match builder.groups with
  | [] => none
  | (before, finished) :: groups =>
      some ⟨before ++ [.alternatives (finished ++ [builder.current])], groups⟩

def finish? (builder : Builder) : Option (List Token) :=
  if builder.inGroup then none else some builder.current

/-- Two stars that are no component of their own. -/
def pushStars (builder : Builder) : Builder :=
  (builder.push .zeroOrMore).push .zeroOrMore

/-- Puts `**` in the place of the slash in front of it; a `**` that stands there already is kept. -/
def replaceSlash (builder : Builder) (token : Token) : Builder :=
  match builder.current.getLast? with
  | some .leadingComponents => builder
  | some .trailingComponents => builder
  | _ => { builder with current := builder.current.dropLast ++ [token] }

/-- Adds `**`, which stands after `previous` and in front of `rest`. Gives also the text that is
left; a slash after a whole component belongs to it. -/
def doubleStar (builder : Builder) (previous : Option Char) (rest : List Char) :
    Builder × List Char :=
  if builder.current.isEmpty then
    match rest with
    | [] => (builder.push .leadingComponents, [])
    | '/' :: rest => (builder.push .leadingComponents, rest)
    | _ => (builder.pushStars, rest)
  else if previous != some '/' &&
      !(builder.inGroup && (previous == some ',' || previous == some '{')) then
    (builder.pushStars, rest)
  else
    match rest with
    | [] => (builder.replaceSlash .trailingComponents, [])
    | '/' :: rest => (builder.replaceSlash .innerComponents, rest)
    | c :: _ =>
        if builder.inGroup && (c == ',' || c == '}') then
          (builder.replaceSlash .trailingComponents, rest)
        else (builder.pushStars, rest)

theorem length_doubleStar_le (builder : Builder) (previous : Option Char) (rest : List Char) :
    (builder.doubleStar previous rest).2.length ≤ rest.length := by
  unfold doubleStar
  repeat' split
  all_goals simp

end Builder

/-- Ends the last range of a class at `c`; ranges are listed last first. -/
def extendRange? (ranges : List (Char × Char)) (c : Char) : Option (List (Char × Char)) :=
  match ranges with
  | [] => none
  | (low, _) :: ranges => if c < low then none else some ((low, c) :: ranges)

/-- Reads a class after its opening bracket: its ranges, last first, and the text after it. A
bracket or dash at the start and a dash at the end are members. -/
def classRanges? : (first inRange : Bool) → List (Char × Char) → List Char →
    Option (List (Char × Char) × List Char)
  | _, _, _, [] => none
  | first, inRange, ranges, c :: rest =>
      if c == ']' && !first then
        some (if inRange then ('-', '-') :: ranges else ranges, rest)
      else if inRange then
        match extendRange? ranges c with
        | some ranges => classRanges? false false ranges rest
        | none => none
      else if c == '-' && !first then classRanges? false true ranges rest
      else classRanges? false false ((c, c) :: ranges) rest

/-- The bytes of a range. A character of several bytes counts as its bytes, and a range runs from
the last byte of its first character to the first byte of its last. -/
def byteRanges (range : Char × Char) : List (UInt8 × UInt8) :=
  let single (byte : UInt8) : UInt8 × UInt8 := (byte, byte)
  let low := bytes range.1
  let high := bytes range.2
  if range.1 = range.2 then low.map single
  else
    low.dropLast.map single ++
      (match low.getLast?, high.head? with
        | some low, some high => [(low, high)]
        | _, _ => []) ++
      (high.drop 1).map single

def parseClass? (text : List Char) : Option (Token × List Char) :=
  let (negated, text) :=
    match text with
    | '!' :: rest => (true, rest)
    | '^' :: rest => (true, rest)
    | _ => (false, text)
  (classRanges? true false [] text).map fun (ranges, rest) =>
    (.oneOf negated (ranges.reverse.flatMap byteRanges), rest)

theorem length_lt_of_classRanges? {first inRange : Bool} {ranges found : List (Char × Char)}
    {text rest : List Char} (h : classRanges? first inRange ranges text = some (found, rest)) :
    rest.length < text.length := by
  induction text generalizing first inRange ranges with
  | nil => simp [classRanges?] at h
  | cons c text ih =>
      simp only [classRanges?] at h
      split at h
      · simp only [Option.some.injEq, Prod.mk.injEq] at h
        simp [h.2]
      · split at h
        · split at h
          · exact Nat.lt_succ_of_lt (ih h)
          · simp at h
        · split at h
          · exact Nat.lt_succ_of_lt (ih h)
          · exact Nat.lt_succ_of_lt (ih h)

theorem length_lt_of_parseClass? {text rest : List Char} {token : Token}
    (h : parseClass? text = some (token, rest)) : rest.length < text.length := by
  simp only [parseClass?, Option.map_eq_some_iff] at h
  obtain ⟨⟨ranges, after⟩, hranges, heq⟩ := h
  cases heq
  have := length_lt_of_classRanges? hranges
  split at this <;> simp_all
  all_goals omega

def parseFrom? (builder : Builder) (previous : Option Char) (text : List Char) :
    Option (List Token) :=
  match text with
  | [] => builder.finish?
  | '\\' :: rest =>
      match rest with
      | [] => none
      | c :: rest => parseFrom? (builder.push (.literal c)) (some c) rest
  | '*' :: '*' :: rest =>
      let starred := builder.doubleStar previous rest
      parseFrom? starred.1 (some (if starred.2.length < rest.length then '/' else '*')) starred.2
  | c :: rest =>
      if c = '[' then
        match _hclass : parseClass? rest with
        | some (token, after) => parseFrom? (builder.push token) (some ']') after
        | none => none
      else if c = '}' then
        match builder.closeGroup? with
        | some builder => parseFrom? builder (some c) rest
        | none => none
      else
        let next :=
          if c = '*' then builder.push .zeroOrMore
          else if c = '?' then builder.push .any
          else if c = '{' then builder.openGroup
          else if c = ',' then builder.comma
          else builder.push (.literal c)
        parseFrom? next (some c) rest
termination_by text.length
decreasing_by
  · simp only [List.length_cons]
    omega
  · have := builder.length_doubleStar_le previous rest
    simp only [List.length_cons]
    omega
  · have := length_lt_of_parseClass? _hclass
    simp only [List.length_cons]
    omega
  · simp
  · simp

end AtomicCss.Glob

namespace AtomicCss

def Glob.parse? (bounded : Bool) (pattern : String) : Option Glob :=
  (Glob.parseFrom? .empty none pattern.toList).map fun tokens => ⟨tokens, bounded⟩

end AtomicCss
