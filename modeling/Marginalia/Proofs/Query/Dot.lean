/-
  Marginalia/Proofs/Query/Dot.lean
  ================================
  **The exported drawing of the graph.**  A reader of the DOT language takes the
  exported text apart into statements.  It finds one statement for each node and one
  for each edge, and no other (`read_graphText`), whatever characters the ids and
  names hold.

  The tokenizer takes one character at a time, so tokens of an append are found one
  part after the other (`run_append`), and a text between double quotes is a single
  token (`spells_dotString`).  Semicolons divide the tokens into statements: those of
  the joined lines are the statements of each line (`statements?_of_writes`).
-/
import Marginalia.Database.Compile
import Marginalia.Query.Export
import Mathlib.Data.List.Forall2

namespace Marginalia.Dot

/-! ### The tokenizer -/

/-- A token of the DOT language. -/
inductive Token where
  | word (s : String)
  /-- What stands between double quotes. -/
  | text (s : String)
  | arrow
  | sign (c : Char)
  deriving DecidableEq, Repr

/-- Where the tokenizer stands; the characters of the token that it is in, last one first. -/
inductive Mode where
  | between
  | word (seen : List Char)
  | text (seen : List Char)
  /-- Behind a backslash in a text. -/
  | escape (seen : List Char)
  | dash
  deriving DecidableEq, Repr

def isWordChar (c : Char) : Bool := c.isAlphanum || c == '_'

def signs : List Char := ['\x7b', '\x7d', '[', ']', ';', '=']

/-- The mode in which a character is the first one of a token, and the token if it is all of it. -/
def start? (c : Char) : Option (Mode × List Token) :=
  if c.isWhitespace then some (.between, [])
  else if c = '"' then some (.text [], [])
  else if c = '-' then some (.dash, [])
  else if isWordChar c then some (.word [c], [])
  else if c ∈ signs then some (.between, [.sign c])
  else none

/-- The mode after a character, and the tokens that it completes.  A text runs to the first double
quote that is not escaped; an escaped backslash or double quote is the character itself, and a
backslash before any other character is one. -/
def step : Mode → Char → Option (Mode × List Token)
  | .between, c => start? c
  | .word seen, c =>
    if isWordChar c then some (.word (c :: seen), [])
    else (start? c).map fun (m, ts) => (m, .word (String.ofList seen.reverse) :: ts)
  | .text seen, c =>
    if c = '"' then some (.between, [.text (String.ofList seen.reverse)])
    else if c = '\\' then some (.escape seen, [])
    else some (.text (c :: seen), [])
  | .escape seen, c =>
    if c = '\\' ∨ c = '"' then some (.text (c :: seen), [])
    else some (.text (c :: '\\' :: seen), [])
  | .dash, c => if c = '>' then some (.between, [.arrow]) else none

/-- The mode after a text, and its tokens. -/
def run : Mode → List Char → Option (Mode × List Token)
  | m, [] => some (m, [])
  | m, c :: cs => do
    let (m', ts) ← step m c
    let (m'', ts') ← run m' cs
    return (m'', ts ++ ts')

/-- A text has these tokens, and its last character ends one. -/
def Spells (s : String) (ts : List Token) : Prop := run .between s.toList = some (.between, ts)

instance (s : String) (ts : List Token) : Decidable (Spells s ts) :=
  inferInstanceAs (Decidable (_ = _))

theorem run_append {m m' m'' : Mode} {cs cs' : List Char} {ts ts' : List Token}
    (h : run m cs = some (m', ts)) (h' : run m' cs' = some (m'', ts')) :
    run m (cs ++ cs') = some (m'', ts ++ ts') := by
  induction cs generalizing m ts with
  | nil =>
    obtain ⟨rfl, rfl⟩ : m = m' ∧ [] = ts := by simpa [run] using h
    exact h'
  | cons c cs ih =>
    simp only [run, Option.bind_eq_bind, Option.bind_eq_some_iff, Option.pure_def,
      Option.some.injEq] at h
    obtain ⟨⟨m₁, ts₁⟩, hstep, ⟨m₂, ts₂⟩, hrest, heq⟩ := h
    obtain ⟨rfl, rfl⟩ : m₂ = m' ∧ ts₁ ++ ts₂ = ts := by simpa using heq
    simp [run, hstep, ih hrest]

theorem Spells.append {s s' : String} {ts ts' : List Token} (h : Spells s ts)
    (h' : Spells s' ts') : Spells (s ++ s') (ts ++ ts') := by
  rw [Spells, String.toList_append]
  exact run_append h h'

/-! ### Texts between double quotes -/

/-- A character as it stands between double quotes. -/
def escaped (c : Char) : List Char := if c = '\\' || c = '"' then ['\\', c] else [c]

/-- Escaping all backslashes first and all double quotes then comes to the same. -/
theorem flatMap_escaped (cs : List Char) :
    cs.flatMap escaped = (cs.flatMap (slashed '\\')).flatMap (slashed '"') := by
  rw [List.flatMap_assoc]
  congr 1
  funext c
  by_cases hslash : c = '\\'
  · subst hslash
    rfl
  · by_cases hquote : c = '"'
    · subst hquote
      rfl
    · simp [escaped, slashed, hslash, hquote]

theorem toList_dotString (s : String) :
    (dotString s).toList = '"' :: (s.toList.flatMap escaped ++ ['"']) := by
  rw [flatMap_escaped]
  exact String.toList_ofList

theorem run_escaped (c : Char) (seen : List Char) :
    run (.text seen) (escaped c) = some (.text (c :: seen), []) := by
  by_cases hslash : c = '\\'
  · subst hslash
    rfl
  · by_cases hquote : c = '"'
    · subst hquote
      rfl
    · simp [escaped, run, step, hslash, hquote]

/-- No character ends the text that it stands in: the tokenizer stays in it. -/
theorem run_flatMap_escaped (cs seen : List Char) :
    run (.text seen) (cs.flatMap escaped) = some (.text (cs.reverse ++ seen), []) := by
  induction cs generalizing seen with
  | nil => rfl
  | cons c cs ih =>
    rw [List.flatMap_cons, List.reverse_cons, List.append_assoc]
    exact run_append (run_escaped c seen) (ih (c :: seen))

theorem spells_dotString (s : String) : Spells (dotString s) [.text s] := by
  have hopen : run .between ['"'] = some (.text [], []) := rfl
  have hclose : run (.text s.toList.reverse) ['"'] = some (.between, [.text s]) := by
    simp [run, step]
  have hinside := run_flatMap_escaped s.toList []
  rw [List.append_nil] at hinside
  rw [Spells, toList_dotString]
  exact run_append hopen (run_append hinside hclose)

/-- A text that holds the end of its own statement. -/
example : Spells (dotString "a\"]; \\") [.text "a\"]; \\"] := by decide

/-! ### Statements -/

/-- A statement of the DOT language, with its attributes in their order. -/
inductive Statement where
  | setting (key value : String)
  | defaults (kind : String) (attributes : List (String × String))
  | node (id : String) (attributes : List (String × String))
  | edge (source target : String) (attributes : List (String × String))
  deriving DecidableEq, Repr

/-- A directed graph of the DOT language. -/
structure Drawing where
  name : String
  statements : List Statement
  deriving DecidableEq, Repr

/-- The name that a token stands for: quoted or not makes no difference. -/
def Token.name? : Token → Option String
  | .word s => some s
  | .text s => some s
  | _ => none

/-- Attributes up to the bracket that closes them, which is the last token. -/
def attributes? : List Token → Option (List (String × String))
  | [.sign ']'] => some []
  | .word key :: .sign '=' :: v :: ts => do
    let value ← v.name?
    let attrs ← attributes? ts
    return (key, value) :: attrs
  | _ => none

/-- The words that give defaults when they stand in front of attributes. -/
def keywords : List String := ["graph", "node", "edge"]

/-- The statement that these tokens are. -/
def Statement.ofTokens? : List Token → Option Statement
  | [.word key, .sign '=', v] => v.name?.map (.setting key)
  | .word s :: .sign '[' :: ts =>
    (attributes? ts).map (if s ∈ keywords then .defaults s else .node s)
  | .text s :: .sign '[' :: ts => (attributes? ts).map (.node s)
  | a :: .arrow :: b :: .sign '[' :: ts => do
    let source ← a.name?
    let target ← b.name?
    let attrs ← attributes? ts
    return .edge source target attrs
  | _ => none

/-- The statements of the pieces between semicolons; the last piece is the closing brace alone. -/
def ofPieces? : List (List Token) → Option (List Statement)
  | [] => none
  | [piece] => if piece = [.sign '\x7d'] then some [] else none
  | piece :: pieces => do
    let st ← Statement.ofTokens? piece
    let sts ← ofPieces? pieces
    return st :: sts

def statements? (ts : List Token) : Option (List Statement) := ofPieces? (ts.splitOn (.sign ';'))

/-- The directed graph that a text is. -/
def read (s : String) : Option Drawing :=
  match run .between s.toList with
  | some (.between, .word "digraph" :: .word name :: .sign '\x7b' :: ts) =>
    (statements? ts).map (⟨name, ·⟩)
  | _ => none

/-- The line is this statement and a semicolon. -/
def Writes (line : String) (st : Statement) : Prop :=
  ∃ ts, Spells line (ts ++ [.sign ';']) ∧ .sign ';' ∉ ts ∧ Statement.ofTokens? ts = some st

theorem statements?_append {ts : List Token} (h : .sign ';' ∉ ts) (ts' : List Token) :
    statements? (ts ++ .sign ';' :: ts') = (do
      let st ← Statement.ofTokens? ts
      let sts ← statements? ts'
      return st :: sts) := by
  have hpieces : (ts ++ .sign ';' :: ts').splitOn (.sign ';') = ts :: ts'.splitOn (.sign ';') :=
    List.splitOnP_append_cons_of_forall_mem (by grind) _ (by simp) _
  rw [statements?, hpieces, statements?]
  cases hrest : ts'.splitOn (.sign ';') with
  | nil => exact absurd hrest (List.splitOn_ne_nil _ _)
  | cons piece pieces => rfl

/-- Lines that are statements are read as these statements, in their order, up to the brace that
closes the drawing. -/
theorem statements?_of_writes {lines : List String} {sts : List Statement}
    (h : List.Forall₂ Writes lines sts) :
    ∃ ts, Spells ("\n".intercalate (lines ++ ["\x7d"])) ts ∧ statements? ts = some sts := by
  induction h with
  | nil => exact ⟨[.sign '\x7d'], rfl, rfl⟩
  | @cons line st lines sts hline _ ih =>
    obtain ⟨ts, hts, hsemicolon, hst⟩ := hline
    obtain ⟨ts', hts', hsts⟩ := ih
    have hbreak : Spells "\n" [] := rfl
    have hlines : "\n".intercalate (line :: lines ++ ["\x7d"]) =
        line ++ "\n" ++ "\n".intercalate (lines ++ ["\x7d"]) := by
      cases lines with
      | nil => exact String.intercalate_cons_cons
      | cons next lines => exact String.intercalate_cons_cons
    refine ⟨ts ++ .sign ';' :: ts', ?_, ?_⟩
    · rw [hlines]
      simpa using (hts.append hbreak).append hts'
    · rw [statements?_append hsemicolon, hst, hsts]
      rfl

/-! ### The exported graph -/

/-- The name of the entry of a node if it is not empty, else the id of the node. -/
def caption (db : Compiled) (id : String) : String :=
  match (Table.get? id db.entries).bind Entry.name with
  | some name => if name.isEmpty then id else name
  | none => id

def isInternal (db : Compiled) (id : String) : Bool :=
  (Table.get? id db.entries).bind Entry.visibility == some .internal

/-- The statement that is due for a node. -/
def nodeStatement (db : Compiled) (id : String) : Statement :=
  .node id [("label", caption db id), ("shape", if isInternal db id then "ellipse" else "box")]

/-- The statement that is due for an edge. -/
def edgeStatement (e : Edge String) : Statement :=
  .edge e.source e.target [("color", e.kind.colour), ("label", e.kind.name)]

theorem caption_eq (db : Compiled) (id : String) :
    ((db.nodeName? id).map Label.shown).getD id = caption db id := by
  rw [Database.nodeName?, caption]
  cases (Table.get? id db.entries).bind Entry.name with
  | none => rfl
  | some name => by_cases hempty : name.isEmpty <;> simp [Option.filter, hempty]

theorem writes_dotNode (db : Compiled) (id : String) :
    Writes (db.dotNode id) (nodeStatement db id) := by
  let shape := if isInternal db id then "ellipse" else "box"
  have hstart : Spells "  " [] := rfl
  have hlabel : Spells " [label=" [.sign '[', .word "label", .sign '='] := rfl
  have hshape : Spells " shape=" [.word "shape", .sign '='] := rfl
  have hend : Spells (shape ++ "];") [.word shape, .sign ']', .sign ';'] := by
    unfold shape
    split <;> rfl
  have hline : db.dotNode id = "  " ++ dotString id ++ " [label=" ++ dotString (caption db id)
      ++ " shape=" ++ (shape ++ "];") := by
    rw [Database.dotNode, caption_eq, ← String.append_assoc]
    rfl
  refine ⟨[.text id, .sign '[', .word "label", .sign '=', .text (caption db id), .word "shape",
    .sign '=', .word shape, .sign ']'], ?_, by simp, rfl⟩
  rw [hline]
  exact ((((hstart.append (spells_dotString id)).append hlabel).append
    (spells_dotString _)).append hshape).append hend

theorem writes_dot (e : Edge String) : Writes e.dot (edgeStatement e) := by
  have hstart : Spells "  " [] := rfl
  have harrow : Spells " -> " [.arrow] := rfl
  have hcolor : Spells " [color=" [.sign '[', .word "color", .sign '='] := rfl
  have hend : Spells (e.kind.colour ++ " label=\"" ++ e.kind.name ++ "\"];")
      [.word e.kind.colour, .word "label", .sign '=', .text e.kind.name, .sign ']', .sign ';'] := by
    cases e.kind <;> rfl
  have hline : e.dot = "  " ++ dotString e.source ++ " -> " ++ dotString e.target ++ " [color="
      ++ (e.kind.colour ++ " label=\"" ++ e.kind.name ++ "\"];") := by
    simp only [Edge.dot, Label.shown_string, String.append_assoc]
  refine ⟨[.text e.source, .arrow, .text e.target, .sign '[', .word "color", .sign '=',
    .word e.kind.colour, .word "label", .sign '=', .text e.kind.name, .sign ']'],
    ?_, by simp, rfl⟩
  rw [hline]
  exact ((((hstart.append (spells_dotString _)).append harrow).append
    (spells_dotString _)).append hcolor).append hend

/-- The statements that stand in front of those of the nodes. -/
def preamble : List Statement := [.setting "rankdir" "LR", .defaults "node" [("shape", "box")]]

/-- The exported graph is read as one statement for each node and then one for each edge of the
kinds asked for, in their orders, and nothing else. -/
theorem read_graphText (db : Compiled) (kinds : List DepKind) :
    read (db.graphText .dot kinds) = some ⟨"MetaModeGraph",
      preamble ++ (Table.keys db.graph.nodes).map (nodeStatement db)
        ++ (db.graph.edges.filter (·.kind ∈ kinds)).map edgeStatement⟩ := by
  have hpreamble : List.Forall₂ Writes ["  rankdir=LR;", "  node [shape=box];"] preamble :=
    .cons ⟨[.word "rankdir", .sign '=', .word "LR"], rfl, by simp, rfl⟩
      (.cons ⟨[.word "node", .sign '[', .word "shape", .sign '=', .word "box", .sign ']'], rfl,
        by simp, rfl⟩ .nil)
  have hnodes : List.Forall₂ Writes ((Table.keys db.graph.nodes).map db.dotNode)
      ((Table.keys db.graph.nodes).map (nodeStatement db)) := by
    simpa [List.forall₂_same] using fun id _ => writes_dotNode db id
  have hedges : List.Forall₂ Writes ((db.graph.edgesOf kinds).map Edge.dot)
      ((db.graph.edgesOf kinds).map edgeStatement) := by
    simpa [List.forall₂_same] using fun e _ => writes_dot e
  have hselected : db.graph.edges.filter (·.kind ∈ kinds) = db.graph.edgesOf kinds := by
    simp [DepGraph.edgesOf]
  obtain ⟨ts, hts, hstatements⟩ :=
    statements?_of_writes (List.rel_append (List.rel_append hpreamble hnodes) hedges)
  have hhead : Spells ("digraph MetaModeGraph \x7b" ++ "\n")
      [.word "digraph", .word "MetaModeGraph", .sign '\x7b'] := rfl
  have htext : db.graphText .dot kinds = "digraph MetaModeGraph \x7b" ++ "\n" ++
      "\n".intercalate (["  rankdir=LR;", "  node [shape=box];"]
        ++ (Table.keys db.graph.nodes).map db.dotNode ++ (db.graph.edgesOf kinds).map Edge.dot
        ++ ["\x7d"]) := String.intercalate_cons_cons
  have htokens := hhead.append hts
  rw [Spells, ← htext] at htokens
  rw [read, htokens, hselected]
  simp [hstatements]

end Marginalia.Dot
