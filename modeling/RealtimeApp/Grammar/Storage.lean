import RealtimeApp.Grammar.Value

/-!
# Storage and names

Storage is listed in braces, each entry `name : type = initial ;`.  The names of storage that
a routine uses are listed in brackets between commas, with an optional comma at the end.  No
name is listed twice.
-/

namespace RealtimeApp

namespace Grammar

/-- Read entries to the end of a sequence, behind the entries read before. -/
def readStatics (before : Statics) : List Token → Except ParseError Statics
  | [] => .ok before
  | first :: afterName =>
    match first.ident? with
    | none => .error (.ofCause (.wanted .ident (some first)))
    | some name =>
      if before.contains name.lexeme then .error (.ofCause (.duplicateResource name.lexeme))
      else
        match afterName with
        | [] => .error (.ofCause (.wanted .colon none))
        | second :: tokens =>
          if second.isLeaf .colon then
            match _h : static.run tokens with
            | (.error e, _) => .error (e.within (.entry name.lexeme))
            | (.ok value, rest) => readStatics (before.insert name.lexeme value) rest
          else .error (.ofCause (.wanted .colon (some second)))
termination_by tokens => tokens.length
decreasing_by
  have shorter := static.length_rest_le tokens
  rw [_h] at shorter
  simp only [List.length_cons] at shorter ⊢
  omega

/-- Storage listed in braces. -/
def statics : Rule Statics := .delimited .brace (readStatics .empty)

/-- Read names to the end of a sequence, behind the names read before. -/
def readIdents (before : NameSet) : List Token → Except ParseError NameSet
  | [] => .ok before
  | first :: afterName =>
    match first.ident? with
    | none => .error (.ofCause (.wanted .ident (some first)))
    | some name =>
      if before.contains name.lexeme then .error (.ofCause (.duplicateIdent name.lexeme))
      else
        match afterName with
        | [] => .ok (before.insert name.lexeme ())
        | separator :: rest =>
          if separator.isLeaf .comma then readIdents (before.insert name.lexeme ()) rest
          else .error (.ofCause (.wanted .comma (some separator)))

/-- Names listed in brackets. -/
def idents : Rule NameSet := .delimited .bracket (readIdents .empty)

end Grammar

end RealtimeApp
