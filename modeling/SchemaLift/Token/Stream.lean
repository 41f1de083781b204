import SchemaLift.Token.Scan

/-!
# Token streams

A token carries the text between the token before it and itself, its gap. A stream is a list of
tokens and the text after the last one, so every stretch of source from one token to another can be
read off the tokens (`spelling`), gaps included, and a replacement of tokens keeps all that is between
them. Byte spans are computed from the gaps.
-/

namespace SchemaLift

/-- A range of bytes, its end excluded. -/
structure Span where
  start : Nat
  stop : Nat
  deriving DecidableEq, Repr

namespace Span

def length (s : Span) : Nat := s.stop - s.start

def isEmpty (s : Span) : Bool := s.length == 0

def message (s : Span) : String := toString s.start ++ ".." ++ toString s.stop

end Span

structure Token where
  /-- The text between the token before this one, or the start, and this one. -/
  gap : Text
  kind : TokenKind
  text : Text
  deriving DecidableEq, Repr, Inhabited

namespace Token

def is (t : Token) (kind : TokenKind) : Bool := t.kind == kind

def isWord (t : Token) (name : String) : Bool := t.kind == .identifier && t.text == name.toList

/-- The token with the text before it. -/
def full (t : Token) : Text := t.gap ++ t.text

/-- The source from the first token of a list through its last one. -/
def spelling : List Token → Text
  | [] => []
  | t :: ts => t.text ++ ts.flatMap full

/-- The byte spans of tokens that follow each other, the first gap at `offset`. -/
def spans (offset : Nat) : List Token → List Span
  | [] => []
  | t :: ts =>
    let start := offset + Text.utf8Size t.gap
    let stop := start + Text.utf8Size t.text
    ⟨start, stop⟩ :: spans stop ts

/-- The tokens that are not comments; a comment goes into the gap of the token after it. The text
`gap` is put before the first token. -/
def dropComments (gap : Text) : List Token → List Token
  | [] => []
  | t :: ts =>
    if t.kind = .comment then dropComments (gap ++ t.full) ts
    else { t with gap := gap ++ t.gap } :: dropComments [] ts

/-- Applies `f` to each token with the tokens before it, nearest first, and those after it. -/
def mapNeighbours (f : List Token → Token → List Token → α) (before : List Token) :
    List Token → List α
  | [] => []
  | t :: ts => f before t ts :: mapNeighbours f (t :: before) ts

end Token

/-- The tokens of a text and what follows the last one. -/
structure TokenStream where
  tokens : List Token
  tail : Text
  deriving DecidableEq, Repr

namespace TokenStream

/-- Gathers pieces to tokens with gaps; `gap` stands before the first piece. -/
def ofPieces (gap : Text) : List Piece → TokenStream
  | [] => ⟨[], gap⟩
  | ⟨none, text⟩ :: ps => ofPieces (gap ++ text) ps
  | ⟨some kind, text⟩ :: ps =>
    let rest := ofPieces [] ps
    ⟨⟨gap, kind, text⟩ :: rest.tokens, rest.tail⟩

def ofText (s : Text) : TokenStream := ofPieces [] (Scan.pieces s)

def toText (s : TokenStream) : Text := s.tokens.flatMap Token.full ++ s.tail

/-- The gaps and the tail of a stream with other texts in place of its tokens. -/
def weave (tokens : List Token) (texts : List Text) (tail : Text) : Text :=
  (List.zipWith (fun t text => t.gap ++ text) tokens texts).flatten ++ tail

theorem toText_ofPieces (gap : Text) (ps : List Piece) :
    (ofPieces gap ps).toText = gap ++ ps.flatMap Piece.text := by
  induction ps generalizing gap with
  | nil => simp [ofPieces, toText]
  | cons p ps ih =>
    obtain ⟨kind, text⟩ := p
    cases kind with
    | none => simp [ofPieces, ih]
    | some kind =>
      have := ih []
      simp only [toText, List.nil_append] at this
      simp [ofPieces, toText, Token.full, this]

/-- The tokens and gaps of a text are the text. -/
theorem toText_ofText (s : Text) : (ofText s).toText = s := by
  rw [ofText, toText_ofPieces, Scan.pieces_text, List.nil_append]

end TokenStream

/-- The tokens of a text, comments included. -/
def tokenize (s : Text) : List Token := (TokenStream.ofText s).tokens

/-- The tokens of a text without its comments. -/
def tokenizeCode (s : Text) : List Token := Token.dropComments [] (tokenize s)

/-- The text with each token replaced by what `replacement` gives for it, if anything. All between the
tokens stays. -/
def replaceTokens (replacement : List Token → Token → List Token → Option Text) (s : Text) : Text :=
  let stream := TokenStream.ofText s
  let texts := Token.mapNeighbours (fun before t after => (replacement before t after).getD t.text) []
    stream.tokens
  TokenStream.weave stream.tokens texts stream.tail

end SchemaLift
