import RealtimeApp.Proofs.Recognition
import RealtimeApp.Proofs.TokenChanges
import RealtimeApp.Proofs.TokenTree

/-!
# Reading without places

Where a token stands is only ever passed on, so every rule of the grammar commutes with
forgetting places: without theirs, tokens describe the same application without places, or they
are refused with the same error but for the places of the tokens that it names
(`App.ofTokens_unplaced`).
-/

namespace RealtimeApp

/-! ## Applications without places -/

namespace NameMap

variable {α β : Type} (g : α → β)

/-- The map with every value changed. -/
def mapValues (map : NameMap α) : NameMap β :=
  ⟨map.entries.map fun entry => (entry.1, g entry.2), List.pairwise_map.2 map.sorted⟩

@[simp] theorem contains_mapValues (map : NameMap α) (name : Bytes) :
    (map.mapValues g).contains name = map.contains name := by
  simp only [contains, mapValues, List.any_map]
  rfl

theorem insertEntry_map (name : Bytes) (value : α) (entries : List (Bytes × α)) :
    insertEntry name (g value) (entries.map fun entry => (entry.1, g entry.2)) =
      (insertEntry name value entries).map fun entry => (entry.1, g entry.2) := by
  induction entries with
  | nil => rfl
  | cons first rest ih =>
      simp only [List.map_cons, insertEntry, ih]
      split
      · rfl
      · split <;> rfl

theorem insert_mapValues (map : NameMap α) (name : Bytes) (value : α) :
    (map.mapValues g).insert name (g value) = (map.insert name value).mapValues g := by
  simp only [insert, mapValues, insertEntry_map]

end NameMap

/-- The storage without places. -/
def Statics.unplaced (statics : Statics) : Statics :=
  statics.mapValues (Static.mapTokens Token.unplaced)

/-- The start routine without places. -/
def Init.unplaced (init : Init) : Init := ⟨init.path.map Token.unplaced⟩

/-- The idle routine without places. -/
def Idle.unplaced (idle : Idle) : Idle :=
  ⟨Statics.unplaced idle.locals, idle.path.map Token.unplaced, idle.resources⟩

/-- The application without places. -/
def App.unplaced (app : App) : App :=
  ⟨app.device.map Token.unplaced, app.idle.unplaced, app.init.unplaced,
    Statics.unplaced app.resources, app.tasks⟩

/-! ## Forgetting places -/

/-- The leaf without its place. -/
def Leaf.unplaced (l : Leaf) : Leaf := { l with position := Token.nowhere }

namespace Token

theorem unplaced_leaf (l : Leaf) : (leaf l).unplaced = leaf l.unplaced := rfl

theorem unplaced_group (d : Delimiter) (position : Position) (members : List Token) :
    (group d position members).unplaced = group d nowhere (members.map unplaced) := by
  rw [unplaced, unplacedAll_eq_map]

@[simp] theorem kind_unplaced (t : Token) : t.unplaced.kind = t.kind := by
  cases t <;> rfl

@[simp] theorem hasKind_unplaced (kind : TokenKind) (t : Token) :
    t.unplaced.hasKind kind = t.hasKind kind := by
  rw [hasKind, hasKind, kind_unplaced]

@[simp] theorem isLeaf_unplaced (kind : LeafKind) (t : Token) :
    t.unplaced.isLeaf kind = t.isLeaf kind := by
  cases t <;> rfl

theorem ident?_unplaced (t : Token) :
    t.unplaced.ident? = t.ident?.map Leaf.unplaced := by
  cases t with
  | leaf l =>
      have hkind : l.unplaced.kind = l.kind := rfl
      rw [unplaced_leaf, ident?, ident?, hkind]
      split <;> rfl
  | group d position members => rfl

end Token

namespace Rule

variable {α β : Type} {g : α → β}

theorem commutes_delimited {d : Delimiter} {body : List Token → Except ParseError α}
    {body' : List Token → Except ParseError β}
    (hbody : ∀ members,
      body' (members.map Token.unplaced) = carry Token.unplaced g (body members)) :
    Commutes Token.unplaced g (delimited d body) (delimited d body') := by
  apply commutes_ofNext
  intro found
  cases found with
  | none => rfl
  | some t =>
      cases t with
      | leaf l => rfl
      | group e position members =>
          rw [Option.map_some, Token.unplaced_group, readGroup, readGroup]
          split
          · exact hbody members
          · show Except.error _ = Except.error _
            simp only [ParseError.mapTokens, ParseError.ofCause, Cause.mapTokens,
              Token.unplaced_group]

end Rule

namespace Fields

open Rule

variable {σ τ : Type} {g : σ → τ} {visit : Leaf → σ → Rule σ} {visit' : Leaf → τ → Rule τ}

/-- Fields are read without their places when each value is. -/
theorem result_read_unplaced
    (hvisit : ∀ key state, Commutes Token.unplaced g (visit key state)
      (visit' key.unplaced (g state)))
    (state : σ) (tokens : List Token) :
    (read (.ofRules visit') (g state) (tokens.map Token.unplaced)).result =
      carry Token.unplaced g (read (.ofRules visit) state tokens).result := by
  -- behind a key and its colon, the changed tokens are read as the tokens are
  have hfield : ∀ {key : Leaf} {second : Token} (state : σ) (tokens : List Token) {result rest},
      key.kind = .ident → second.isLeaf .colon = true →
      (visit key state).run tokens = (result, rest) →
      read (.ofRules visit') (g state) ((Token.leaf key :: second :: tokens).map Token.unplaced) =
        match carry Token.unplaced g result, rest.map Token.unplaced with
        | .error e, _ => ⟨g state, some (.value key.unplaced e)⟩
        | .ok next, [] => ⟨next, none⟩
        | .ok next, separator :: rest =>
          if separator.isLeaf .comma then read (.ofRules visit') next rest
          else ⟨next, some (.layout (.wanted .comma (some separator)))⟩ := by
    intro key second state tokens result rest hkey hcolon hread
    have hrun := hvisit key state tokens
    rw [hread] at hrun
    have hkey' : key.unplaced.kind = .ident := hkey
    have hcolon' : second.unplaced.isLeaf .colon = true := by rwa [Token.isLeaf_unplaced]
    rw [List.map_cons, List.map_cons, Token.unplaced_leaf, read_ofRules_field hkey' hcolon', hrun]
    cases result with
    | error e => rfl
    | ok next => cases rest <;> rfl
  fun_induction read (.ofRules visit) state tokens with
  | case1 state =>
      rw [List.map_nil, read_nil]
      rfl
  | case2 state first afterKey hident =>
      rw [List.map_cons, read, Token.ident?_unplaced, hident]
      rfl
  | case3 state first key hident =>
      rw [List.map_cons, read, Token.ident?_unplaced, hident]
      rfl
  | case4 state first key hident second tokens hcolon error next rest hhandle =>
      obtain ⟨rfl, hkey⟩ := Token.ident?_eq_some.1 hident
      obtain ⟨rfl, hread⟩ := Handler.handle_ofRules_eq_error_iff.1 hhandle
      rw [hfield next tokens hkey hcolon hread]
      rfl
  | case5 state first key hident second tokens hcolon next hhandle =>
      obtain ⟨rfl, hkey⟩ := Token.ident?_eq_some.1 hident
      rw [hfield state tokens hkey hcolon (Handler.handle_ofRules_eq_ok_iff.1 hhandle)]
      rfl
  | case6 state first key hident second tokens hcolon next separator rest hhandle hcomma ih =>
      obtain ⟨rfl, hkey⟩ := Token.ident?_eq_some.1 hident
      rw [hfield state tokens hkey hcolon (Handler.handle_ofRules_eq_ok_iff.1 hhandle), ← ih]
      simp only [carry_ok, List.map_cons, Token.isLeaf_unplaced, if_pos hcomma]
  | case7 state first key hident second tokens hcolon next separator rest hhandle hcomma =>
      obtain ⟨rfl, hkey⟩ := Token.ident?_eq_some.1 hident
      rw [hfield state tokens hkey hcolon (Handler.handle_ofRules_eq_ok_iff.1 hhandle)]
      simp only [carry_ok, List.map_cons, Token.isLeaf_unplaced, if_neg hcomma]
      rfl
  | case8 state first key hident second tokens hcolon =>
      rw [List.map_cons, List.map_cons, read, Token.ident?_unplaced, hident]
      simp only [Option.map_some, Token.isLeaf_unplaced, if_neg hcolon]
      rfl

/-- A group of fields is read without its places when each value is and the fields are put
together without theirs. -/
theorem commutes_group
    (hvisit : ∀ key state, Commutes Token.unplaced g (visit key state)
      (visit' key.unplaced (g state)))
    {α β : Type} {h : α → β} {finish : σ → Except ParseError α} {finish' : τ → Except ParseError β}
    (hfinish : ∀ state, finish' (g state) = carry Token.unplaced h (finish state))
    (d : Delimiter) (start : σ) :
    Commutes Token.unplaced h
      (delimited d fun body => (read (.ofRules visit) start body).result >>= finish)
      (delimited d fun body => (read (.ofRules visit') (g start) body).result >>= finish') := by
  apply commutes_delimited
  intro members
  rw [result_read_unplaced hvisit]
  exact carry_bind hfinish _

end Fields

namespace Grammar

open Rule

/-! ### Values -/

theorem readBool_unplaced (found : Option Token) :
    readBool (found.map Token.unplaced) = carry Token.unplaced id (readBool found) := by
  unfold readBool
  split
  · rename_i lexeme value suffix position heq
    obtain ⟨t, rfl, ht⟩ := Option.map_eq_some_iff.1 heq
    cases t with
    | leaf l =>
        obtain ⟨kind, lexeme, literal, suffix, position⟩ := l
        cases ht
        rfl
    | group d position members => cases ht
  · rename_i hnot
    split
    · exact absurd rfl (hnot _ _ _ _)
    · rfl

theorem plainInteger?_unplaced (found : Option Token) :
    plainInteger? (found.map Token.unplaced) = plainInteger? found := by
  unfold plainInteger?
  split
  · rename_i lexeme value position heq
    obtain ⟨t, rfl, ht⟩ := Option.map_eq_some_iff.1 heq
    cases t with
    | leaf l =>
        obtain ⟨kind, lexeme, literal, suffix, position⟩ := l
        cases ht
        rfl
    | group d position members => cases ht
  · rename_i hnot
    split
    · exact absurd rfl (hnot _ _ _)
    · rfl

theorem readByte_unplaced (found : Option Token) :
    readByte (found.map Token.unplaced) = carry Token.unplaced id (readByte found) := by
  rw [readByte, readByte, plainInteger?_unplaced]
  cases plainInteger? found with
  | none => rfl
  | some value =>
      show (if 256 ≤ value then _ else _) = carry _ _ (if 256 ≤ value then _ else _)
      split <;> rfl

theorem commutes_bool : Commutes Token.unplaced id bool bool := commutes_ofNext readBool_unplaced

theorem commutes_byte : Commutes Token.unplaced id byte byte := commutes_ofNext readByte_unplaced

theorem commutes_path_unplaced : Commutes Token.unplaced (List.map Token.unplaced) path path :=
  commutes_path (Token.isLeaf_unplaced .comma)

/-! ### Storage and names -/

theorem readIdents_unplaced (before : NameSet) (tokens : List Token) :
    readIdents before (tokens.map Token.unplaced) =
      carry Token.unplaced id (readIdents before tokens) := by
  fun_induction readIdents before tokens with
  | case1 before =>
      rw [List.map_nil, readIdents]
      rfl
  | case2 before first afterName hident =>
      rw [List.map_cons, readIdents, Token.ident?_unplaced, hident]
      rfl
  | case3 before first afterName name hident hlisted =>
      rw [List.map_cons, readIdents, Token.ident?_unplaced, hident]
      exact if_pos hlisted
  | case4 before first name hident hnew =>
      rw [List.map_cons, readIdents, Token.ident?_unplaced, hident]
      exact if_neg hnew
  | case5 before first name hident hnew separator rest hcomma ih =>
      rw [← ih, List.map_cons, List.map_cons, readIdents, Token.ident?_unplaced, hident]
      simp only [Option.map_some, Token.isLeaf_unplaced, if_pos hcomma]
      exact if_neg hnew
  | case6 before first name hident hnew separator rest hcomma =>
      rw [List.map_cons, List.map_cons, readIdents, Token.ident?_unplaced, hident]
      simp only [Option.map_some, Token.isLeaf_unplaced, if_neg hcomma]
      exact if_neg hnew

theorem commutes_idents : Commutes Token.unplaced id idents idents :=
  commutes_delimited (readIdents_unplaced .empty)

theorem readStatics_unplaced (before : Statics) (tokens : List Token) :
    readStatics (Statics.unplaced before) (tokens.map Token.unplaced) =
      carry Token.unplaced Statics.unplaced (readStatics before tokens) := by
  -- behind a new name and its colon, the changed tokens are read as the tokens are
  have hentry : ∀ {name : Leaf} {second : Token} {before : Statics} {tokens : List Token}
      {result rest}, name.kind = .ident → before.contains name.lexeme = false →
      second.isLeaf .colon = true → static.run tokens = (result, rest) →
      readStatics (Statics.unplaced before)
          ((Token.leaf name :: second :: tokens).map Token.unplaced) =
        match carry Token.unplaced (Static.mapTokens Token.unplaced) result with
        | .error e => .error (e.within (.entry name.lexeme))
        | .ok value =>
          readStatics ((Statics.unplaced before).insert name.lexeme value)
            (rest.map Token.unplaced) := by
    intro name second before tokens result rest hname hnew hcolon hread
    have hrun := commutes_static Token.hasKind_unplaced tokens
    rw [hread] at hrun
    have hname' : name.unplaced.kind = .ident := hname
    have hnew' : (Statics.unplaced before).contains name.unplaced.lexeme = false := by
      rwa [Statics.unplaced, NameMap.contains_mapValues]
    have hcolon' : second.unplaced.isLeaf .colon = true := by rwa [Token.isLeaf_unplaced]
    rw [List.map_cons, List.map_cons, Token.unplaced_leaf,
      readStatics_entry hname' hnew' hcolon', hrun]
    cases result <;> rfl
  fun_induction readStatics before tokens with
  | case1 before =>
      rw [List.map_nil, readStatics]
      rfl
  | case2 before first afterName hident =>
      rw [List.map_cons, readStatics, Token.ident?_unplaced, hident]
      rfl
  | case3 before first afterName name hident hlisted =>
      rw [List.map_cons, readStatics, Token.ident?_unplaced, hident]
      simp only [Option.map_some, Statics.unplaced, NameMap.contains_mapValues]
      exact if_pos hlisted
  | case4 before first name hident hnew =>
      rw [List.map_cons, readStatics, Token.ident?_unplaced, hident]
      simp only [Option.map_some, Statics.unplaced, NameMap.contains_mapValues]
      exact if_neg hnew
  | case5 before first name hident hnew second tokens hcolon error rest hread =>
      obtain ⟨rfl, hname⟩ := Token.ident?_eq_some.1 hident
      rw [hentry hname (by simpa using hnew) hcolon hread]
      rfl
  | case6 before first name hident hnew second tokens hcolon value rest hread ih =>
      obtain ⟨rfl, hname⟩ := Token.ident?_eq_some.1 hident
      rw [hentry hname (by simpa using hnew) hcolon hread, ← ih, Statics.unplaced, Statics.unplaced,
        ← NameMap.insert_mapValues]
      rfl
  | case7 before first name hident hnew second tokens hcolon =>
      rw [List.map_cons, List.map_cons, readStatics, Token.ident?_unplaced, hident]
      simp only [Option.map_some, Statics.unplaced, NameMap.contains_mapValues,
        Token.isLeaf_unplaced, if_neg hcolon]
      exact if_neg hnew

theorem commutes_statics : Commutes Token.unplaced Statics.unplaced statics statics :=
  commutes_delimited (readStatics_unplaced .empty)

/-! ### Fields with fixed keys -/

section Slots

variable {α β σ τ : Type} {g : α → β} {h : σ → τ}

theorem commutes_fill {rule : Rule α} {rule' : Rule β}
    (hrule : Commutes Token.unplaced g rule rule') (key : Leaf) (slot : Option α) :
    Commutes Token.unplaced g (fill key slot rule) (fill key.unplaced (slot.map g) rule') := by
  cases slot with
  | none => exact hrule.within (.entry key.lexeme)
  | some value => exact commutes_fail rfl

/-- A field is read without places when its value is and its slot is. -/
theorem commutes_slot {rule : Rule α} {rule' : Rule β}
    (hrule : Commutes Token.unplaced g rule rule') (key : Leaf) (slot : Option α) {set : α → σ}
    {set' : β → τ} (hset : ∀ value, set' (g value) = h (set value)) :
    Commutes Token.unplaced h (fill key slot rule >>= fun value => Pure.pure (set value))
      (fill key.unplaced (slot.map g) rule' >>= fun value => Pure.pure (set' value)) := by
  apply (commutes_fill hrule key slot).bind
  intro value
  rw [hset]
  exact commutes_pure (set value)

/-- Where values have no places, neither has a slot. -/
theorem commutes_slot_id {rule : Rule α} (hrule : Commutes Token.unplaced id rule rule)
    (key : Leaf) (slot : Option α) {set : α → σ} {set' : α → τ}
    (hset : ∀ value, set' value = h (set value)) :
    Commutes Token.unplaced h (fill key slot rule >>= fun value => Pure.pure (set value))
      (fill key.unplaced slot rule >>= fun value => Pure.pure (set' value)) := by
  have hslot := commutes_slot hrule key slot hset
  rwa [Option.map_id_apply] at hslot

theorem commutes_unknown (key : Leaf) :
    Commutes Token.unplaced h (unknown key) (unknown key.unplaced) := commutes_fail rfl

theorem filled_map (name : Bytes) (slot : Option α) :
    filled name (slot.map g) = carry Token.unplaced g (filled name slot) := by
  cases slot <;> rfl

end Slots

/-! ### Routines and tasks -/

/-- The slots without places. -/
def InitSlots.unplaced (slots : InitSlots) : InitSlots := ⟨slots.path.map (List.map Token.unplaced)⟩

theorem commutes_init : Commutes Token.unplaced Init.unplaced init init := by
  refine Fields.commutes_group (g := InitSlots.unplaced) ?_ ?_ .brace ⟨none⟩
  · intro key slots
    apply commutes_ite
    · exact commutes_slot commutes_path_unplaced key _ fun _ => rfl
    · exact commutes_unknown key
  · intro slots
    rw [InitSlots.finish, InitSlots.finish, InitSlots.unplaced, filled_map]
    apply carry_bind
    intro path
    rfl

/-- The slots without places. -/
def IdleSlots.unplaced (slots : IdleSlots) : IdleSlots :=
  ⟨slots.locals.map Statics.unplaced, slots.path.map (List.map Token.unplaced), slots.resources⟩

theorem commutes_idle : Commutes Token.unplaced Idle.unplaced idle idle := by
  refine Fields.commutes_group (g := IdleSlots.unplaced) ?_ ?_ .brace ⟨none, none, none⟩
  · intro key slots
    apply commutes_ite
    · exact commutes_slot commutes_path_unplaced key _ fun _ => rfl
    apply commutes_ite
    · exact commutes_slot commutes_statics key _ fun _ => rfl
    apply commutes_ite
    · exact commutes_slot_id commutes_idents key _ fun _ => rfl
    · exact commutes_unknown key
  · rintro ⟨locals, path, resources⟩
    rw [IdleSlots.finish, IdleSlots.finish, IdleSlots.unplaced, filled_map]
    apply carry_bind
    intro path
    cases locals <;> rfl

theorem commutes_task : Commutes Token.unplaced id task task := by
  have hvisit : ∀ key slots, Commutes Token.unplaced id (TaskSlots.visit key slots)
      (TaskSlots.visit key.unplaced slots) := by
    intro key slots
    apply commutes_ite
    · exact commutes_slot_id commutes_bool key _ fun _ => rfl
    apply commutes_ite
    · exact commutes_slot_id commutes_byte key _ fun _ => rfl
    apply commutes_ite
    · exact commutes_slot_id commutes_idents key _ fun _ => rfl
    · exact commutes_unknown key
  apply commutes_delimited
  intro members
  have hread := Fields.result_read_unplaced (g := id) hvisit ⟨none, none, none⟩ members
  rw [id] at hread
  rw [hread]
  cases (Fields.read (.ofRules TaskSlots.visit) ⟨none, none, none⟩ members).result <;> rfl

theorem commutes_tasks : Commutes Token.unplaced id tasks tasks := by
  have hvisit : ∀ name before, Commutes Token.unplaced id (visitTask name before)
      (visitTask name.unplaced before) := by
    intro name before
    apply commutes_ite
    · exact commutes_fail rfl
    · exact (commutes_task.within (.task name.lexeme)).bind fun value => commutes_pure _
  apply commutes_delimited
  intro members
  exact Fields.result_read_unplaced (g := id) hvisit .empty members

/-! ### Applications -/

/-- The slots without places. -/
def AppSlots.unplaced (slots : AppSlots) : AppSlots :=
  ⟨slots.device.map (List.map Token.unplaced), slots.idle.map Idle.unplaced,
    slots.init.map Init.unplaced, slots.resources.map Statics.unplaced, slots.tasks⟩

theorem finish_unplaced (slots : AppSlots) :
    slots.unplaced.finish = carry Token.unplaced App.unplaced slots.finish := by
  obtain ⟨device, idle, init, resources, tasks⟩ := slots
  simp only [AppSlots.finish, AppSlots.unplaced, filled_map]
  apply carry_bind
  intro device
  apply carry_bind
  intro idle
  apply carry_bind
  intro init
  cases resources <;> rfl

theorem commutes_app : Commutes Token.unplaced App.unplaced app app := by
  refine Fields.commutes_group (g := AppSlots.unplaced) ?_ finish_unplaced .brace .empty
  intro key slots
  apply commutes_ite
  · exact commutes_slot commutes_path_unplaced key _ fun _ => rfl
  apply commutes_ite
  · exact commutes_slot commutes_idle key _ fun _ => rfl
  apply commutes_ite
  · exact commutes_slot commutes_init key _ fun _ => rfl
  apply commutes_ite
  · exact commutes_slot commutes_statics key _ fun _ => rfl
  apply commutes_ite
  · exact commutes_slot_id commutes_tasks key _ fun _ => rfl
  · exact commutes_unknown key

end Grammar

/-- Without their places, tokens describe the application without places, or they are refused
with the same error but for the places of the tokens that it names. -/
theorem App.ofTokens_unplaced (tokens : List Token) :
    App.ofTokens (tokens.map Token.unplaced) =
      carry Token.unplaced App.unplaced (App.ofTokens tokens) := by
  have hrun := Grammar.commutes_app tokens
  rw [App.ofTokens, App.ofTokens, hrun]
  rcases Grammar.app.run tokens with ⟨_ | app, _ | ⟨extra, rest⟩⟩ <;> rfl

end RealtimeApp
