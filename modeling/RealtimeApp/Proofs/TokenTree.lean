import RealtimeApp.Token.Printer

/-!
# Trees of tokens

Views of a sequence of tokens that the theory speaks about: the leaves from left to right, the
lexemes and delimiters as they are walked over, and what is left of a token when its place, or
its place and its decoded value, is forgotten.

Two tokens are the same exactly when they agree up to places and decoded values
(`same_iff_bare_eq`), so sameness is an equivalence and sequences that are the same are printed
alike.
-/

namespace RealtimeApp
namespace Token

mutual

/-- The leaves of a token, from left to right. -/
def leaves : Token → List Leaf
  | leaf l => [l]
  | group _ _ members => leavesAll members

/-- The leaves of a sequence of tokens, from left to right. -/
def leavesAll : List Token → List Leaf
  | [] => []
  | t :: ts => leaves t ++ leavesAll ts

end

mutual

/-- The lexemes of the leaves of a token, and the opener and closer around the members of each
group. -/
def lexemes : Token → List Bytes
  | leaf l => [l.lexeme]
  | group d _ members => [d.opening] :: (lexemesAll members ++ [[d.closing]])

/-- The lexemes and delimiters of a sequence of tokens. -/
def lexemesAll : List Token → List Bytes
  | [] => []
  | t :: ts => lexemes t ++ lexemesAll ts

end

/-- The place of a token that stands nowhere. -/
def nowhere : Position := ⟨0, 0⟩

mutual

/-- A token without the places of its parts. -/
def unplaced : Token → Token
  | leaf l => leaf { l with position := nowhere }
  | group d _ members => group d nowhere (unplacedAll members)

/-- A sequence of tokens without places. -/
def unplacedAll : List Token → List Token
  | [] => []
  | t :: ts => unplaced t :: unplacedAll ts

end

mutual

/-- A token without places and decoded values. -/
def bare : Token → Token
  | leaf l => leaf ⟨l.kind, l.lexeme, none, [], nowhere⟩
  | group d _ members => group d nowhere (bareAll members)

/-- A sequence of tokens without places and decoded values. -/
def bareAll : List Token → List Token
  | [] => []
  | t :: ts => bare t :: bareAll ts

end

/-- Induction on a token: a leaf has no parts, and the members of a group come before it. -/
theorem induction {P : Token → Prop} (leaf : ∀ l, P (leaf l))
    (group : ∀ d position members, (∀ t ∈ members, P t) → P (group d position members)) :
    ∀ t, P t
  | .leaf l => leaf l
  | .group d position members =>
      group d position members fun t _ => Token.induction leaf group t

/-! ## Sequences -/

theorem leavesAll_eq_flatMap (ts : List Token) : leavesAll ts = ts.flatMap leaves := by
  induction ts with
  | nil => rfl
  | cons t ts ih => rw [leavesAll, ih, List.flatMap_cons]

theorem lexemesAll_eq_flatMap (ts : List Token) : lexemesAll ts = ts.flatMap lexemes := by
  induction ts with
  | nil => rfl
  | cons t ts ih => rw [lexemesAll, ih, List.flatMap_cons]

theorem unplacedAll_eq_map (ts : List Token) : unplacedAll ts = ts.map unplaced := by
  induction ts with
  | nil => rfl
  | cons t ts ih => rw [unplacedAll, ih, List.map_cons]

theorem bareAll_eq_map (ts : List Token) : bareAll ts = ts.map bare := by
  induction ts with
  | nil => rfl
  | cons t ts ih => rw [bareAll, ih, List.map_cons]

theorem mem_leavesAll {l : Leaf} {ts : List Token} :
    l ∈ leavesAll ts ↔ ∃ t ∈ ts, l ∈ leaves t := by
  rw [leavesAll_eq_flatMap, List.mem_flatMap]

theorem depthAll_le_iff {ts : List Token} {n : Nat} :
    depthAll ts ≤ n ↔ ∀ t ∈ ts, depth t ≤ n := by
  induction ts with
  | nil => simp [depthAll]
  | cons t ts ih => rw [depthAll, Nat.max_le, ih, List.forall_mem_cons]

/-! ## Depth -/

theorem depthAll_le_length_textTail {ts : List Token}
    (h : ∀ t ∈ ts, t.depth ≤ t.text.length) :
    depthAll ts ≤ (textTail ts).length := by
  induction ts with
  | nil => exact Nat.le_refl _
  | cons t ts ih =>
      have ht := h t List.mem_cons_self
      have hts := ih fun u hu => h u (List.mem_cons_of_mem t hu)
      rw [depthAll, textTail, List.length_cons, List.length_append]
      omega

theorem depthAll_le_length_of_forall {ts : List Token}
    (h : ∀ t ∈ ts, t.depth ≤ t.text.length) :
    depthAll ts ≤ (textAll ts).length := by
  cases ts with
  | nil => exact Nat.le_refl _
  | cons t ts =>
      have ht := h t List.mem_cons_self
      have hts := depthAll_le_length_textTail fun u hu => h u (List.mem_cons_of_mem t hu)
      rw [depthAll, textAll, List.length_append]
      omega

/-- Every group is written with its delimiters. -/
theorem depth_le_length_text (t : Token) : t.depth ≤ t.text.length := by
  induction t using Token.induction with
  | leaf l => exact Nat.zero_le _
  | group d position members ih =>
      have hmembers := depthAll_le_length_of_forall ih
      rw [depth, text, List.length_cons, List.length_append]
      omega

/-! ## Sameness -/

theorem sameAll_iff_of_forall {ts : List Token}
    (h : ∀ t ∈ ts, ∀ u, same t u = true ↔ bare t = bare u) (us : List Token) :
    sameAll ts us = true ↔ bareAll ts = bareAll us := by
  induction ts generalizing us with
  | nil => cases us <;> simp [sameAll, bareAll]
  | cons t ts ih =>
      cases us with
      | nil => simp [sameAll, bareAll]
      | cons u us =>
          have ht := h t List.mem_cons_self u
          have hts := ih (fun s hs => h s (List.mem_cons_of_mem t hs)) us
          simp [sameAll, bareAll, ht, hts]

/-- Two tokens are the same exactly when they agree up to places and decoded values. -/
theorem same_iff_bare_eq (t u : Token) : same t u = true ↔ bare t = bare u := by
  induction t using Token.induction generalizing u with
  | leaf l =>
      cases u with
      | leaf m => simp [same, bare]
      | group e position others => simp [same, bare]
  | group d position members ih =>
      cases u with
      | leaf m => simp [same, bare]
      | group e position others => simp [same, bare, sameAll_iff_of_forall ih others]

theorem sameAll_iff_bareAll_eq (ts us : List Token) :
    sameAll ts us = true ↔ bareAll ts = bareAll us :=
  sameAll_iff_of_forall (fun t _ => same_iff_bare_eq t) us

theorem textTail_of_forall {f : Token → Token} {ts : List Token}
    (h : ∀ t ∈ ts, text (f t) = text t) : textTail (ts.map f) = textTail ts := by
  induction ts with
  | nil => rfl
  | cons t ts ih =>
      rw [List.map_cons, textTail, textTail, h t List.mem_cons_self,
        ih fun s hs => h s (List.mem_cons_of_mem t hs)]

theorem textAll_of_forall {f : Token → Token} {ts : List Token}
    (h : ∀ t ∈ ts, text (f t) = text t) : textAll (ts.map f) = textAll ts := by
  cases ts with
  | nil => rfl
  | cons t ts =>
      rw [List.map_cons, textAll, textAll, h t List.mem_cons_self,
        textTail_of_forall fun s hs => h s (List.mem_cons_of_mem t hs)]

/-- Places and decoded values are not printed. -/
theorem text_bare (t : Token) : text (bare t) = text t := by
  induction t using Token.induction with
  | leaf l => rfl
  | group d position members ih =>
      rw [bare, text, text, bareAll_eq_map, textAll_of_forall ih]

/-- Sequences that are the same are printed alike. -/
theorem textAll_eq_of_sameAll {ts us : List Token} (h : sameAll ts us = true) :
    textAll ts = textAll us := by
  have hbare := (sameAll_iff_bareAll_eq ts us).1 h
  have hprint : ∀ ts : List Token, textAll (bareAll ts) = textAll ts := by
    intro ts
    rw [bareAll_eq_map]
    exact textAll_of_forall fun t _ => text_bare t
  rw [← hprint ts, hbare, hprint us]

theorem sameAll_symm {ts us : List Token} (h : sameAll ts us = true) : sameAll us ts = true :=
  (sameAll_iff_bareAll_eq us ts).2 ((sameAll_iff_bareAll_eq ts us).1 h).symm

theorem sameAll_trans {ts us vs : List Token} (h : sameAll ts us = true)
    (h' : sameAll us vs = true) : sameAll ts vs = true :=
  (sameAll_iff_bareAll_eq ts vs).2
    (((sameAll_iff_bareAll_eq ts us).1 h).trans ((sameAll_iff_bareAll_eq us vs).1 h'))

/-! ## Forgetting places -/

theorem bare_unplaced (t : Token) : bare (unplaced t) = bare t := by
  induction t using Token.induction with
  | leaf l => rfl
  | group d position members ih =>
      rw [unplaced, bare, bare, unplacedAll_eq_map, bareAll_eq_map, bareAll_eq_map, List.map_map]
      exact congrArg (Token.group d nowhere) (List.map_congr_left ih)

theorem sameAll_of_unplacedAll_eq {ts us : List Token} (h : unplacedAll ts = unplacedAll us) :
    sameAll ts us = true := by
  have hbare : ∀ ts : List Token, bareAll (unplacedAll ts) = bareAll ts := by
    intro ts
    rw [unplacedAll_eq_map, bareAll_eq_map, bareAll_eq_map, List.map_map]
    exact List.map_congr_left fun t _ => bare_unplaced t
  rw [sameAll_iff_bareAll_eq, ← hbare ts, h, hbare us]

/-- What a leaf was decoded to: its value and its suffix. -/
def decoded (l : Leaf) : Option Literal × Bytes := (l.literal, l.suffix)

theorem leavesAll_map_of_forall {α : Type} {f : Leaf → α} {g : Token → Token} {ts : List Token}
    (h : ∀ t ∈ ts, (leaves (g t)).map f = (leaves t).map f) :
    (leavesAll (ts.map g)).map f = (leavesAll ts).map f := by
  induction ts with
  | nil => rfl
  | cons t ts ih =>
      rw [List.map_cons, leavesAll, leavesAll, List.map_append, List.map_append,
        h t List.mem_cons_self, ih fun s hs => h s (List.mem_cons_of_mem t hs)]

theorem leaves_unplaced_decoded (t : Token) :
    (leaves (unplaced t)).map decoded = (leaves t).map decoded := by
  induction t using Token.induction with
  | leaf l => rfl
  | group d position members ih =>
      rw [unplaced, leaves, leaves, unplacedAll_eq_map]
      exact leavesAll_map_of_forall ih

/-- Sequences that agree up to places are decoded alike. -/
theorem leavesAll_decoded_eq {ts us : List Token} (h : unplacedAll ts = unplacedAll us) :
    (leavesAll ts).map decoded = (leavesAll us).map decoded := by
  have hleaves : ∀ ts : List Token,
      (leavesAll (unplacedAll ts)).map decoded = (leavesAll ts).map decoded := by
    intro ts
    rw [unplacedAll_eq_map]
    exact leavesAll_map_of_forall fun t _ => leaves_unplaced_decoded t
  rw [← hleaves ts, h, hleaves us]

end Token
end RealtimeApp
