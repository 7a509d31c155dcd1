import MarketFeed.Gateway.Subscriber
/-!
# The C++ gateway reads a request (cpp/src/tcp_gateway.cpp:145-164, :575-584, :612-617)

A request is scanned as text, for the first occurrence of a quoted key. Where the source keeps a position, here
the rest of the text from that position on is kept.
-/

namespace Gateway

/-- `find` of a character: the text from its first occurrence on. -/
def findChar (c : Char) : List Char → Option (List Char)
  | [] => none
  | d :: l => if d = c then some (d :: l) else findChar c l

/-- `find` of a text that is not empty. -/
def findText (p : List Char) : List Char → Option (List Char)
  | [] => none
  | d :: l => if p.isPrefixOf (d :: l) then some (d :: l) else findText p l

/-- The text before the first occurrence of a character. -/
def before (c : Char) : List Char → Option (List Char)
  | [] => none
  | d :: l => if d = c then some [] else (before c l).map (d :: ·)

/-- A text between quotes. -/
def quote (s : List Char) : List Char := '\"' :: s ++ ['\"']

/-- The loop of `json_string_array`: outside a string, or inside one with what was read of it. -/
def strings : Option (List Char) → List Char → List String
  | _, [] => []
  | none, d :: l => if d = '\"' then strings (some []) l else strings none l
  | some read, d :: l => if d = '\"' then String.ofList read :: strings none l else strings (some (read ++ [d])) l

/-- `json_string_array`. -/
def jsonStringArray (j : List Char) (key : String) : Option (List String) :=
  (findText (quote key.toList) j).bind fun k => (findChar '[' k).bind fun lb => (before ']' lb).map fun region =>
    strings none region.tail

/-- `json_string`. -/
def jsonString (j : List Char) (key : String) : Option String :=
  (findText (quote key.toList) j).bind fun k => (findChar ':' k).bind fun c => (findChar '\"' c).bind fun q =>
    (before '\"' q.tail).map String.ofList

/-- Of `" \t\r\n"`. -/
def isBlank (c : Char) : Bool := c = ' ' || c = '\t' || c = '\r' || c = '\n'

def looksLikeJsonObject (j : List Char) : Bool :=
  (j.dropWhile isBlank).head? = some '\x7b' && (j.reverse.dropWhile isBlank).head? = some '\x7d'

/-- The mode a text names, upper or lower case. -/
def modeOf (text : String) : Option Mode :=
  let lower := text.toList.map Char.toLower
  if lower = "stream".toList then some .stream else if lower = "conflate".toList then some .conflate else none

end Gateway
