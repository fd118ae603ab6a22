import XmlSieve.Entries

/-!
# Tokens

A document, read from start to end, is a sequence of tokens: start tags with their attributes, end
tags, and runs of text.  A tag that closes itself counts as a start tag and an end tag.
-/

namespace XmlSieve

/-- The attributes of a start tag, in document order. -/
abbrev Attributes := Entries String

inductive Token where
  | startTag (name : String) (attributes : Attributes)
  | endTag (name : String)
  | text (content : String)
  deriving DecidableEq, Repr, Inhabited

end XmlSieve
