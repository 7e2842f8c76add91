import RealtimeApp.Fields
import RealtimeApp.Proofs.Success
import RealtimeApp.Proofs.WrittenForm

/-!
# Reading values and fields

A value ends before a comma or at the end of the tokens around it.  A rule reads a form when, at
such an end, it accepts exactly the runs of that form (`Rule.Reads`).

Fields are read exactly when each of them is accepted in turn (`Fields.result_eq_ok_iff`).  Where
the state is made from the fields so far, and a rule for values accepts a field exactly when its
key is new, reading accepts exactly the lists of fields with distinct keys
(`Fields.result_eq_ok_iff_areFields`).
-/

namespace RealtimeApp

open Written

namespace Rule

variable {α : Type}

/-- The tokens behind a value: none, or a comma first. -/
def AtComma (rest : List Token) : Prop := ∀ t ∈ rest.head?, t.isLeaf .comma = true

theorem atComma_nil : AtComma [] := by
  intro t ht
  cases ht

theorem atComma_cons {t : Token} {rest : List Token} (h : t.isLeaf .comma = true) :
    AtComma (t :: rest) := by
  intro u hu
  obtain rfl : t = u := by simpa using hu
  exact h

/-- A rule only goes forward, so that it took a run off the tokens. -/
theorem exists_taken {rule : Rule α} {tokens rest : List Token} {result : Except ParseError α}
    (h : rule.run tokens = (result, rest)) : ∃ taken, taken ++ rest = tokens := by
  have hforward := rule.forward tokens
  rwa [h] at hforward

/-- Before a comma and at the end, the rule takes exactly the runs of this form. -/
def Reads (rule : Rule α) (Form : α → List Token → Prop) : Prop :=
  ∀ a run rest, AtComma rest → (rule.run (run ++ rest) = (.ok a, rest) ↔ Form a run)

theorem Reads.congr {rule : Rule α} {Form Form' : α → List Token → Prop} (h : rule.Reads Form)
    (hform : ∀ a run, Form a run ↔ Form' a run) : rule.Reads Form' := by
  intro a run rest hrest
  rw [h a run rest hrest, hform]

/-- What a rule reads to the end of a run. -/
theorem Reads.run_eq {rule : Rule α} {Form : α → List Token → Prop} (h : rule.Reads Form)
    {a : α} {run : List Token} : rule.run run = (.ok a, []) ↔ Form a run := by
  rw [← h a run [] atComma_nil, List.append_nil]

theorem Reads.within {rule : Rule α} {Form : α → List Token → Prop} (h : rule.Reads Form)
    (note : Note) : (rule.within note).Reads Form := by
  intro a run rest hrest
  rw [← h a run rest hrest, run_within, Prod.ext_iff, Prod.ext_iff]
  exact and_congr mapError_eq_ok_iff Iff.rfl

/-- Where the value of a rule is only changed, the form is the same. -/
theorem Reads.map {β : Type} {rule : Rule α} {Form : α → List Token → Prop} (h : rule.Reads Form)
    (f : α → β) :
    Reads (rule >>= fun a => Pure.pure (f a)) fun b run => ∃ a, Form a run ∧ f a = b := by
  intro b run rest hrest
  rw [run_bind]
  constructor
  · intro hrun
    split at hrun
    · rename_i a left hread
      simp only [run_pure, Prod.mk.injEq, Except.ok.injEq] at hrun
      obtain ⟨hb, rfl⟩ := hrun
      exact ⟨a, (h a run left hrest).1 hread, hb⟩
    · cases hrun
  · rintro ⟨a, hform, rfl⟩
    rw [(h a run rest hrest).2 hform]
    rfl

/-- A rule on the next token reads single tokens. -/
theorem reads_ofNext {read : Option Token → Except ParseError α} (hnone : ∀ a, read none ≠ .ok a) :
    (ofNext read).Reads fun a run => ∃ t, run = [t] ∧ read (some t) = .ok a := by
  intro a run rest _
  show (read (run ++ rest).head?, (run ++ rest).tail) = (.ok a, rest) ↔ _
  rw [Prod.mk.injEq]
  constructor
  · rintro ⟨hread, htail⟩
    have hlength := congrArg List.length htail
    simp only [List.length_tail, List.length_append] at hlength
    cases run with
    | nil =>
        cases rest with
        | nil => exact absurd hread (hnone a)
        | cons t rest =>
            simp only [List.length_nil, List.length_cons] at hlength
            omega
    | cons t more =>
        simp only [List.length_cons] at hlength
        have hmore : more = [] := List.length_eq_zero_iff.1 (by omega)
        exact ⟨t, by rw [hmore], hread⟩
  · rintro ⟨t, rfl, hread⟩
    exact ⟨hread, rfl⟩

/-- A group is read when its members are. -/
theorem reads_delimited {d : Delimiter} {body : List Token → Except ParseError α}
    {Form : α → List Token → Prop} (hbody : ∀ a members, body members = .ok a ↔ Form a members) :
    (delimited d body).Reads (Group d Form) := by
  refine Reads.congr (reads_ofNext ?_) ?_
  · intro a h
    cases h
  · intro a run
    constructor
    · rintro ⟨t, rfl, hread⟩
      cases t with
      | leaf l => cases hread
      | group e position members =>
          by_cases he : e = d
          · subst he
            rw [readGroup, if_pos rfl] at hread
            exact ⟨position, members, rfl, (hbody a members).1 hread⟩
          · rw [readGroup, if_neg he] at hread
            cases hread
    · rintro ⟨position, members, rfl, hmembers⟩
      refine ⟨_, rfl, ?_⟩
      rw [readGroup, if_pos rfl]
      exact (hbody a members).2 hmembers

end Rule

theorem Token.ident?_eq_some {t : Token} {l : Leaf} :
    t.ident? = some l ↔ t = .leaf l ∧ l.kind = .ident := by
  cases t with
  | leaf m =>
      by_cases hkind : m.kind = .ident
      · rw [ident?, if_pos hkind, Option.some.injEq]
        constructor
        · rintro rfl
          exact ⟨rfl, hkind⟩
        · rintro ⟨h, -⟩
          exact Token.leaf.inj h
      · rw [ident?, if_neg hkind]
        constructor
        · intro h
          cases h
        · rintro ⟨h, hident⟩
          rw [Token.leaf.inj h] at hkind
          exact absurd hident hkind
  | group d position members => simp [ident?]

namespace Fields

open Rule

/-! ## Fields and an arbitrary rule for their values -/

section Accepts

variable {σ : Type} {visit : Leaf → σ → Rule σ}

/-- The fields are accepted one after another: each value is followed by a comma or ends the
tokens. -/
inductive Accepts (visit : Leaf → σ → Rule σ) : σ → List Token → σ → Prop
  | nil {state : σ} : Accepts visit state [] state
  | last {state final : σ} {key : Leaf} {colon : Token} {run : List Token} :
      key.kind = .ident → colon.isLeaf .colon = true →
      (visit key state).run run = (.ok final, []) →
      Accepts visit state (.leaf key :: colon :: run) final
  | cons {state next final : σ} {key : Leaf} {colon comma : Token} {run rest : List Token} :
      key.kind = .ident → colon.isLeaf .colon = true →
      (visit key state).run (run ++ comma :: rest) = (.ok next, comma :: rest) →
      comma.isLeaf .comma = true → Accepts visit next rest final →
      Accepts visit state (.leaf key :: colon :: (run ++ comma :: rest)) final

theorem read_nil (handler : Handler σ) (state : σ) : read handler state [] = ⟨state, none⟩ := by
  rw [read]

/-- Reading goes on behind a key and its colon with what the handler leaves. -/
theorem read_field {key : Leaf} {colon : Token} (hkey : key.kind = .ident)
    (hcolon : colon.isLeaf .colon = true) (handler : Handler σ) (state : σ)
    (tokens : List Token) :
    read handler state (.leaf key :: colon :: tokens) =
      match handler.handle key state tokens with
      | ⟨.error e, next, _⟩ => ⟨next, some (.value key e)⟩
      | ⟨.ok (), next, []⟩ => ⟨next, none⟩
      | ⟨.ok (), next, separator :: rest⟩ =>
        if separator.isLeaf .comma then read handler next rest
        else ⟨next, some (.layout (.wanted .comma (some separator)))⟩ := by
  rw [read]
  simp only [Token.ident?, if_pos hkey, if_pos hcolon]
  split <;> simp_all

theorem read_of_ident?_eq_none {first : Token} (h : first.ident? = none) (handler : Handler σ)
    (state : σ) (rest : List Token) :
    read handler state (first :: rest) =
      ⟨state, some (.layout (.wanted .ident (some first)))⟩ := by
  rw [read, h]

/-- A key without a colon stops reading. -/
theorem read_of_no_colon {key : Leaf} {rest : List Token} (hkey : key.kind = .ident)
    (hcolon : ∀ t ∈ rest.head?, t.isLeaf .colon = false) (handler : Handler σ) (state : σ) :
    read handler state (.leaf key :: rest) =
      ⟨state, some (.layout (.wanted .colon rest.head?))⟩ := by
  rw [read, Token.ident?_eq_some.2 ⟨rfl, hkey⟩]
  cases rest with
  | nil => rfl
  | cons second rest =>
      simp only [hcolon second rfl, Bool.false_eq_true, if_false, List.head?_cons]

/-! ### Values that rules read -/

theorem Handler.handle_ofRules (key : Leaf) (state : σ) (tokens : List Token) :
    (ofRules visit).handle key state tokens =
      match (visit key state).run tokens with
      | (.ok next, rest) => ⟨.ok (), next, rest⟩
      | (.error e, rest) => ⟨.error e, state, rest⟩ :=
  rfl

theorem Handler.handle_ofRules_eq_ok_iff {key : Leaf} {state next : σ} {tokens rest : List Token} :
    (ofRules visit).handle key state tokens = ⟨.ok (), next, rest⟩ ↔
      (visit key state).run tokens = (.ok next, rest) := by
  rw [handle_ofRules]
  rcases (visit key state).run tokens with ⟨e | found, left⟩ <;> simp

theorem Handler.handle_ofRules_eq_error_iff {key : Leaf} {state next : σ}
    {tokens rest : List Token} {e : ParseError} :
    (ofRules visit).handle key state tokens = ⟨.error e, next, rest⟩ ↔
      next = state ∧ (visit key state).run tokens = (.error e, rest) := by
  rw [handle_ofRules]
  rcases (visit key state).run tokens with ⟨f | found, left⟩
  · simp [and_left_comm, eq_comm]
  · simp

/-- Reading goes on behind a field that the rule accepts. -/
theorem read_ofRules_field {key : Leaf} {colon : Token} (hkey : key.kind = .ident)
    (hcolon : colon.isLeaf .colon = true) (state : σ) (tokens : List Token) :
    read (.ofRules visit) state (.leaf key :: colon :: tokens) =
      match (visit key state).run tokens with
      | (.error e, _) => ⟨state, some (.value key e)⟩
      | (.ok next, []) => ⟨next, none⟩
      | (.ok next, separator :: rest) =>
        if separator.isLeaf .comma then read (.ofRules visit) next rest
        else ⟨next, some (.layout (.wanted .comma (some separator)))⟩ := by
  rw [read_field hkey hcolon, Handler.handle_ofRules]
  rcases (visit key state).run tokens with ⟨e | next, _ | ⟨separator, rest⟩⟩ <;> rfl

/-- Reading stops where a value is refused. -/
theorem read_ofRules_of_error {key : Leaf} {colon : Token} {state : σ} {tokens : List Token}
    {e : ParseError} (hkey : key.kind = .ident) (hcolon : colon.isLeaf .colon = true)
    (h : (visit key state).value tokens = .error e) :
    read (.ofRules visit) state (.leaf key :: colon :: tokens) =
      ⟨state, some (.value key e)⟩ := by
  rw [Rule.value] at h
  rw [read_ofRules_field hkey hcolon]
  rcases hrun : (visit key state).run tokens with ⟨result, rest⟩
  rw [hrun] at h
  obtain rfl : result = .error e := h
  rfl

theorem result_eq_ok_of_accepts {state final : σ} {tokens : List Token}
    (h : Accepts visit state tokens final) :
    (read (.ofRules visit) state tokens).result = .ok final := by
  induction h with
  | nil =>
      rw [read_nil]
      rfl
  | last hkey hcolon hvisit =>
      rw [read_ofRules_field hkey hcolon, hvisit]
      rfl
  | cons hkey hcolon hvisit hcomma _ ih =>
      rw [read_ofRules_field hkey hcolon, hvisit]
      simpa only [if_pos hcomma] using ih

theorem accepts_of_result_eq_ok {state final : σ} {tokens : List Token} :
    (read (.ofRules visit) state tokens).result = .ok final → Accepts visit state tokens final := by
  fun_induction read (.ofRules visit) state tokens with
  | case1 state =>
      intro h
      cases h
      exact .nil
  -- a first token that is no name, a missing colon, a value or a separator that is refused
  | case2 | case3 | case4 | case7 | case8 =>
      intro h
      cases h
  | case5 state first key hident colon tokens hcolon next hhandle =>
      intro h
      cases h
      obtain ⟨rfl, hkey⟩ := Token.ident?_eq_some.1 hident
      exact .last hkey hcolon (Handler.handle_ofRules_eq_ok_iff.1 hhandle)
  | case6 state first key hident colon tokens hcolon next comma rest hhandle hcomma ih =>
      intro h
      obtain ⟨rfl, hkey⟩ := Token.ident?_eq_some.1 hident
      have hvisit := Handler.handle_ofRules_eq_ok_iff.1 hhandle
      obtain ⟨run, rfl⟩ := exists_taken hvisit
      exact .cons hkey hcolon hvisit hcomma (ih h)

/-- Reading comes to the end exactly when every field is accepted. -/
theorem result_eq_ok_iff {state final : σ} {tokens : List Token} :
    (read (.ofRules visit) state tokens).result = .ok final ↔ Accepts visit state tokens final :=
  ⟨accepts_of_result_eq_ok, result_eq_ok_of_accepts⟩

end Accepts

/-! ## Fields with distinct keys -/

section Build

variable {σ F : Type} {visit : Leaf → σ → Rule σ} {key : F → Bytes}
  {Value : F → List Token → Prop} {build : List F → σ}

/-- The state behind one more field, whose key is new, when its value is written with `run`. -/
def Extends (key : F → Bytes) (Value : F → List Token → Prop) (build : List F → σ) (name : Leaf)
    (before : List F) (next : σ) (run : List Token) : Prop :=
  ∃ field, key field = name.lexeme ∧ name.lexeme ∉ before.map key ∧ Value field run ∧
    next = build (before ++ [field])

theorem exists_fields_of_accepts
    (hvisit : ∀ name before, (before.map key).Nodup →
      (visit name (build before)).Reads (Extends key Value build name before))
    {state final : σ} {tokens : List Token} (h : Accepts visit state tokens final) :
    ∀ before, (before.map key).Nodup → state = build before →
      ∃ fields, Commas (IsField key Value) fields tokens ∧ ((before ++ fields).map key).Nodup ∧
        final = build (before ++ fields) := by
  induction h with
  | nil =>
      rintro before hbefore rfl
      exact ⟨[], .nil, by simpa using hbefore, by simp⟩
  | @last state final name colon run hname hcolon hrun =>
      rintro before hbefore rfl
      obtain ⟨field, hkey, hnew, hvalue, rfl⟩ := (hvisit name before hbefore).run_eq.1 hrun
      rw [← hkey] at hnew
      refine ⟨[field], .last ⟨.leaf name, colon, run, rfl, ?_, hcolon, hvalue⟩, ?_, rfl⟩
      · exact ⟨name, rfl, hname, hkey.symm⟩
      · exact nodup_map_append_singleton hbefore hnew
  | @cons state next final name colon comma run rest hname hcolon hrun hcomma _ ih =>
      rintro before hbefore rfl
      obtain ⟨field, hkey, hnew, hvalue, rfl⟩ :=
        (hvisit name before hbefore _ _ _ (atComma_cons hcomma)).1 hrun
      rw [← hkey] at hnew
      obtain ⟨fields, hfields, hdistinct, hfinal⟩ :=
        ih (before ++ [field]) (nodup_map_append_singleton hbefore hnew) rfl
      rw [List.append_assoc, List.singleton_append] at hdistinct hfinal
      refine ⟨field :: fields, ?_, hdistinct, hfinal⟩
      refine .cons ⟨.leaf name, colon, run, rfl, ?_, hcolon, hvalue⟩ hcomma hfields
      exact ⟨name, rfl, hname, hkey.symm⟩

theorem accepts_of_fields
    (hvisit : ∀ name before, (before.map key).Nodup →
      (visit name (build before)).Reads (Extends key Value build name before))
    {fields : List F} {tokens : List Token} (h : Commas (IsField key Value) fields tokens) :
    ∀ before, ((before ++ fields).map key).Nodup →
      Accepts visit (build before) tokens (build (before ++ fields)) := by
  induction h with
  | nil =>
      intro before _
      rw [List.append_nil]
      exact .nil
  | @last field run hfield =>
      intro before hdistinct
      obtain ⟨name, colon, run, rfl, ⟨l, rfl, hname, hkey⟩, hcolon, hvalue⟩ := hfield
      have hnew := not_mem_map_of_nodup hdistinct
      rw [← hkey] at hnew
      have hrun := (hvisit l before (nodup_map_of_append hdistinct)).run_eq.2
        ⟨field, hkey.symm, hnew, hvalue, rfl⟩
      exact .last hname hcolon hrun
  | @cons field run rest comma fields hfield hcomma _ ih =>
      intro before hdistinct
      obtain ⟨name, colon, run, rfl, ⟨l, rfl, hname, hkey⟩, hcolon, hvalue⟩ := hfield
      have hnew := not_mem_map_of_nodup hdistinct
      rw [← hkey] at hnew
      have hrun := (hvisit l before (nodup_map_of_append hdistinct) _ run (comma :: rest)
        (atComma_cons hcomma)).2 ⟨field, hkey.symm, hnew, hvalue, rfl⟩
      have hsplit : before ++ field :: fields = before ++ [field] ++ fields := by simp
      rw [hsplit] at hdistinct ⊢
      exact .cons hname hcolon hrun hcomma (ih (before ++ [field]) hdistinct)

/-- Where values are read for new keys and only for them, reading accepts exactly the lists of
fields with distinct keys, and makes the state from the fields. -/
theorem result_eq_ok_iff_areFields
    (hvisit : ∀ name before, (before.map key).Nodup →
      (visit name (build before)).Reads (Extends key Value build name before))
    {final : σ} {tokens : List Token} :
    (read (.ofRules visit) (build []) tokens).result = .ok final ↔
      ∃ fields, AreFields key Value fields tokens ∧ final = build fields := by
  rw [result_eq_ok_iff]
  constructor
  · intro h
    obtain ⟨fields, hfields, hdistinct, hfinal⟩ :=
      exists_fields_of_accepts hvisit h [] List.nodup_nil rfl
    exact ⟨fields, ⟨hfields, hdistinct⟩, hfinal⟩
  · rintro ⟨fields, ⟨hfields, hdistinct⟩, rfl⟩
    exact accepts_of_fields hvisit hfields [] hdistinct

/-- A group of fields with distinct keys is read when its value is made from the fields as they
describe it. -/
theorem reads_group
    (hvisit : ∀ name before, (before.map key).Nodup →
      (visit name (build before)).Reads (Extends key Value build name before))
    {α : Type} {d : Delimiter} {finish : σ → Except ParseError α} {Describe : List F → α → Prop}
    (hfinish : ∀ fields a, (fields.map key).Nodup →
      (finish (build fields) = .ok a ↔ Describe fields a)) :
    (delimited d fun body => (read (.ofRules visit) (build []) body).result >>= finish).Reads
      (Group d fun a members =>
        ∃ fields, AreFields key Value fields members ∧ Describe fields a) := by
  apply reads_delimited
  intro a members
  rw [bind_eq_ok_iff]
  constructor
  · rintro ⟨state, hread, hstate⟩
    obtain ⟨fields, hfields, rfl⟩ := (result_eq_ok_iff_areFields hvisit).1 hread
    exact ⟨fields, hfields, (hfinish fields a hfields.distinct).1 hstate⟩
  · rintro ⟨fields, hfields, hdescribe⟩
    exact ⟨build fields, (result_eq_ok_iff_areFields hvisit).2 ⟨fields, hfields, rfl⟩,
      (hfinish fields a hfields.distinct).2 hdescribe⟩

end Build

end Fields

end RealtimeApp
