import RealtimeApp.Lexer
import RealtimeApp.Proofs.FieldReading

/-!
# The calls that reading fields makes

Whatever handles the values, the tokens are fields between commas, and then an ending.  Behind the
colon of each field the handler is called once; a call begins where the colon was and goes on in
the state of the call before it.  The ending says how reading came to the end, or which token or
call stopped it (`Fields.Ending`).

A handler that notes each call before it does anything else (`Fields.noting`) tells which calls
were made, the one that was refused among them.  These calls and the outcome are the only ones for
which the tokens are such a walk (`Fields.read_exact`).
-/

namespace RealtimeApp

namespace Fields

/-! ## What is written -/

/-- A key and its colon. -/
structure Opening where
  key : Leaf
  colon : Token
  named : key.kind = .ident
  marked : colon.isLeaf .colon = true

def Opening.tokens (opening : Opening) : List Token := [.leaf opening.key, opening.colon]

/-- A field, with what the call behind its colon consumed, and the comma behind that. -/
structure Field extends Opening where
  consumed : List Token
  comma : Token
  closed : comma.isLeaf .comma = true

/-- The fields as they stand in the tokens, before `left`. -/
def written : List Field → List Token → List Token
  | [], left => left
  | field :: fields, left =>
    field.tokens ++ (field.consumed ++ field.comma :: written fields left)

/-! ## What is called -/

/-- A call of the handler: the key, and the tokens that are ahead. -/
structure Call where
  key : Leaf
  ahead : List Token

/-- The call for a field begins just behind the colon. -/
def Field.call (field : Field) (rest : List Token) : Call where
  key := field.key
  ahead := field.consumed ++ field.comma :: rest

/-- One call for each field, in their order. -/
def calls : List Field → List Token → List Call
  | [], _ => []
  | field :: fields, left => field.call (written fields left) :: calls fields left

variable {σ : Type} {handler : Handler σ}

/-- The calls for the fields come back one after another, each in front of the comma of its field,
and take one state to the other. -/
inductive Carries (handler : Handler σ) (left : List Token) : σ → List Field → σ → Prop
  | nil {state : σ} : Carries handler left state [] state
  | cons {state next final : σ} {field : Field} {fields : List Field} :
      handler.handle field.key state (field.consumed ++ field.comma :: written fields left) =
        ⟨.ok (), next, field.comma :: written fields left⟩ →
      Carries handler left next fields final → Carries handler left state (field :: fields) final

/-- What becomes of the tokens behind the last comma: the calls that are made there, and the
outcome. -/
inductive Ending (handler : Handler σ) (state : σ) :
    List Token → List Call → Outcome σ → Prop
  | atEnd : Ending handler state [] [] ⟨state, none⟩
  | last (opening : Opening) {consumed : List Token} {final : σ} :
      handler.handle opening.key state consumed = ⟨.ok (), final, []⟩ →
      Ending handler state (opening.tokens ++ consumed) [⟨opening.key, consumed⟩] ⟨final, none⟩
  -- whatever the handler did before it refused the value stays
  | refused (opening : Opening) {ahead rest : List Token} {final : σ} {e : ParseError} :
      handler.handle opening.key state ahead = ⟨.error e, final, rest⟩ →
      Ending handler state (opening.tokens ++ ahead) [⟨opening.key, ahead⟩]
        ⟨final, some (.value opening.key e)⟩
  | noKey {first : Token} {rest : List Token} :
      first.ident? = none →
      Ending handler state (first :: rest) []
        ⟨state, some (.layout (.wanted .ident (some first)))⟩
  | noColon {key : Leaf} {rest : List Token} :
      key.kind = .ident → (∀ t ∈ rest.head?, t.isLeaf .colon = false) →
      Ending handler state (.leaf key :: rest) []
        ⟨state, some (.layout (.wanted .colon rest.head?))⟩
  | noComma (opening : Opening) {consumed : List Token} {extra : Token} {rest : List Token}
      {final : σ} :
      extra.isLeaf .comma = false →
      handler.handle opening.key state (consumed ++ extra :: rest) =
        ⟨.ok (), final, extra :: rest⟩ →
      Ending handler state (opening.tokens ++ (consumed ++ extra :: rest))
        [⟨opening.key, consumed ++ extra :: rest⟩]
        ⟨final, some (.layout (.wanted .comma (some extra)))⟩

/-- The tokens are fields between commas and an ending, with these calls and this outcome. -/
def Walked (handler : Handler σ) (state : σ) (tokens : List Token) (made : List Call)
    (outcome : Outcome σ) : Prop :=
  ∃ fields left middle last, tokens = written fields left ∧
    Carries handler left state fields middle ∧ Ending handler middle left last outcome ∧
    made = calls fields left ++ last

/-- The handler, with a note of every call that is made of it, whether the call comes back or
not. -/
def noting (handler : Handler σ) : Handler (σ × List Call) where
  handle key noted tokens :=
    let handled := handler.handle key noted.1 tokens
    ⟨handled.result, (handled.state, noted.2 ++ [⟨key, tokens⟩]), handled.rest⟩
  forward key noted tokens := handler.forward key noted.1 tokens

/-! ## Every outcome is that of a walk -/

theorem Handler.exists_consumed {key : Leaf} {state next : σ} {tokens rest : List Token}
    {result : Except ParseError Unit} (h : handler.handle key state tokens = ⟨result, next, rest⟩) :
    ∃ consumed, consumed ++ rest = tokens := by
  have hforward := handler.forward key state tokens
  rwa [h] at hforward

theorem Ending.walked {state : σ} {tokens : List Token} {made : List Call} {outcome : Outcome σ}
    (h : Ending handler state tokens made outcome) : Walked handler state tokens made outcome :=
  ⟨[], tokens, state, made, rfl, .nil, h, rfl⟩

theorem Walked.cons {state next : σ} (field : Field) {rest : List Token} {made : List Call}
    {outcome : Outcome σ}
    (hcall : handler.handle field.key state (field.consumed ++ field.comma :: rest) =
      ⟨.ok (), next, field.comma :: rest⟩)
    (h : Walked handler next rest made outcome) :
    Walked handler state (field.tokens ++ (field.consumed ++ field.comma :: rest))
      (field.call rest :: made) outcome := by
  obtain ⟨fields, left, middle, last, rfl, hcarries, hending, rfl⟩ := h
  exact ⟨field :: fields, left, middle, last, rfl, .cons hcall hcarries, hending, rfl⟩

/-- The tokens are always a walk that has the outcome of reading them. -/
theorem exists_walked (handler : Handler σ) (state : σ) (tokens : List Token) :
    ∃ made, Walked handler state tokens made (read handler state tokens) := by
  fun_induction read handler state tokens with
  | case1 state => exact ⟨_, Ending.atEnd.walked⟩
  | case2 state first rest hident => exact ⟨_, (Ending.noKey hident).walked⟩
  -- a colon is missing at the end of the tokens, and before another token in the last case
  | case3 state first key hident =>
      obtain ⟨rfl, hkey⟩ := Token.ident?_eq_some.1 hident
      exact ⟨_, Ending.walked (.noColon hkey (by simp))⟩
  | case4 state first key hident colon tokens hcolon e final rest hcall =>
      obtain ⟨rfl, hkey⟩ := Token.ident?_eq_some.1 hident
      exact ⟨_, (Ending.refused ⟨key, colon, hkey, hcolon⟩ hcall).walked⟩
  | case5 state first key hident colon tokens hcolon final hcall =>
      obtain ⟨rfl, hkey⟩ := Token.ident?_eq_some.1 hident
      exact ⟨_, (Ending.last ⟨key, colon, hkey, hcolon⟩ hcall).walked⟩
  | case6 state first key hident colon tokens hcolon next comma rest hcall hcomma ih =>
      obtain ⟨rfl, hkey⟩ := Token.ident?_eq_some.1 hident
      obtain ⟨made, hwalked⟩ := ih
      obtain ⟨consumed, rfl⟩ := Handler.exists_consumed hcall
      exact ⟨_, hwalked.cons ⟨⟨key, colon, hkey, hcolon⟩, consumed, comma, hcomma⟩ hcall⟩
  | case7 state first key hident colon tokens hcolon next extra rest hcall hextra =>
      obtain ⟨rfl, hkey⟩ := Token.ident?_eq_some.1 hident
      obtain ⟨consumed, rfl⟩ := Handler.exists_consumed hcall
      have hother : extra.isLeaf .comma = false := by simpa using hextra
      exact ⟨_, (Ending.noComma ⟨key, colon, hkey, hcolon⟩ hother hcall).walked⟩
  | case8 state first key hident colon tokens hcolon =>
      obtain ⟨rfl, hkey⟩ := Token.ident?_eq_some.1 hident
      exact ⟨_, Ending.walked (.noColon hkey (by simpa using hcolon))⟩

/-! ## A walk has one outcome -/

/-- Reading goes on behind a key and its colon. -/
theorem read_opening (opening : Opening) (state : σ) (tokens : List Token) :
    read handler state (opening.tokens ++ tokens) =
      match handler.handle opening.key state tokens with
      | ⟨.error e, next, _⟩ => ⟨next, some (.value opening.key e)⟩
      | ⟨.ok (), next, []⟩ => ⟨next, none⟩
      | ⟨.ok (), next, separator :: rest⟩ =>
        if separator.isLeaf .comma then read handler next rest
        else ⟨next, some (.layout (.wanted .comma (some separator)))⟩ :=
  read_field opening.named opening.marked handler state tokens

theorem Ending.read_eq {state : σ} {left : List Token} {made : List Call} {outcome : Outcome σ}
    (h : Ending handler state left made outcome) : read handler state left = outcome := by
  cases h with
  | atEnd => exact read_nil handler state
  | last _ hcall => rw [read_opening, hcall]
  | refused _ hcall => rw [read_opening, hcall]
  | noKey hident => exact read_of_ident?_eq_none hident handler state _
  | noColon hkey hcolon => exact read_of_no_colon hkey hcolon handler state
  | noComma _ hextra hcall =>
      rw [read_opening, hcall]
      simp only [hextra, Bool.false_eq_true, if_false]

/-- Behind the calls for the fields, reading goes on with what is left. -/
theorem Carries.read_written {state middle : σ} {fields : List Field} {left : List Token}
    (h : Carries handler left state fields middle) :
    read handler state (written fields left) = read handler middle left := by
  induction h with
  | nil => rfl
  | @cons state next final field fields hcall _ ih =>
      rw [written, read_opening, hcall]
      simpa only [field.closed, if_true] using ih

theorem Walked.read_eq {state : σ} {tokens : List Token} {made : List Call} {outcome : Outcome σ}
    (h : Walked handler state tokens made outcome) : read handler state tokens = outcome := by
  obtain ⟨fields, left, middle, last, rfl, hcarries, hending, -⟩ := h
  rw [hcarries.read_written, hending.read_eq]

/-! ## The notes of a walk are its calls -/

/-- A call goes the same way when it is noted. -/
theorem handle_noting {key : Leaf} {state next : σ} {tokens rest : List Token}
    {result : Except ParseError Unit}
    (h : handler.handle key state tokens = ⟨result, next, rest⟩) (made : List Call) :
    (noting handler).handle key (state, made) tokens =
      ⟨result, (next, made ++ [⟨key, tokens⟩]), rest⟩ := by
  simp only [noting, h]

theorem Carries.noting {state final : σ} {fields : List Field} {left : List Token}
    (h : Carries handler left state fields final) (made : List Call) :
    Carries (Fields.noting handler) left (state, made) fields
      (final, made ++ calls fields left) := by
  induction h generalizing made with
  | nil =>
      rw [calls, List.append_nil]
      exact .nil
  | @cons state next final field fields hcall _ ih =>
      have hrest := ih (made ++ [field.call (written fields left)])
      rw [List.append_assoc, List.singleton_append] at hrest
      exact .cons (handle_noting hcall made) hrest

theorem Ending.noting {state : σ} {left : List Token} {last : List Call} {outcome : Outcome σ}
    (h : Ending handler state left last outcome) (made : List Call) :
    Ending (Fields.noting handler) (state, made) left last
      ⟨(outcome.state, made ++ last), outcome.stop⟩ := by
  cases h with
  | last opening hcall => exact .last opening (handle_noting hcall made)
  | refused opening hcall => exact .refused opening (handle_noting hcall made)
  | noComma opening hextra hcall => exact .noComma opening hextra (handle_noting hcall made)
  -- where no call is made, nothing is noted
  | atEnd =>
      rw [List.append_nil]
      exact .atEnd
  | noKey hident =>
      rw [List.append_nil]
      exact .noKey hident
  | noColon hkey hcolon =>
      rw [List.append_nil]
      exact .noColon hkey hcolon

theorem Walked.noting {state : σ} {tokens : List Token} {made : List Call} {outcome : Outcome σ}
    (h : Walked handler state tokens made outcome) :
    Walked (Fields.noting handler) (state, []) tokens made
      ⟨(outcome.state, made), outcome.stop⟩ := by
  obtain ⟨fields, left, middle, last, rfl, hcarries, hending, rfl⟩ := h
  exact ⟨fields, left, _, last, rfl, hcarries.noting [], hending.noting _, rfl⟩

/-- Reading fields is exact.  For every handler, state and sequence of tokens there is one list of
calls, which a handler that notes them tells, and this does not change what happens; and the tokens
are fields between commas and an ending with exactly these calls and the outcome of reading. -/
theorem read_exact (handler : Handler σ) (state : σ) (tokens : List Token) :
    ∃ made,
      read (noting handler) (state, []) tokens
        = ⟨((read handler state tokens).state, made), (read handler state tokens).stop⟩ ∧
      ∀ calls outcome, Walked handler state tokens calls outcome ↔
        calls = made ∧ outcome = read handler state tokens := by
  -- noting is a handler like any other, so that reading with it ends as the same walk does
  have hnotes : ∀ {calls outcome}, Walked handler state tokens calls outcome →
      read (noting handler) (state, []) tokens = ⟨(outcome.state, calls), outcome.stop⟩ :=
    fun h => h.noting.read_eq
  obtain ⟨made, hmade⟩ := exists_walked handler state tokens
  refine ⟨made, hnotes hmade, fun calls outcome => ⟨fun h => ?_, ?_⟩⟩
  · obtain rfl := h.read_eq
    have hsame := (hnotes h).symm.trans (hnotes hmade)
    rw [Outcome.mk.injEq, Prod.mk.injEq] at hsame
    exact ⟨hsame.1.2, rfl⟩
  · rintro ⟨rfl, rfl⟩
    exact hmade

/-- A call that is refused is the last one, and it is among the calls. -/
example :
    let handler := Handler.ofRules fun key (_ : Unit) =>
      if key.lexeme = Bytes.ofString "b" then .fail (.other (Bytes.ofString "bad value"))
      else .ofNext fun _ => .ok ()
    let tokens := (lex (Bytes.ofString "a: 1, b: 2, c: 3") 256).1
    (read (noting handler) ((), []) tokens).state.2.map (·.key.lexeme) =
      [Bytes.ofString "a", Bytes.ofString "b"] := by
  decide +kernel

end Fields

end RealtimeApp
