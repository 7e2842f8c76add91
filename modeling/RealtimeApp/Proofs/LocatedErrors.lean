import Mathlib.Logic.Function.Basic
import RealtimeApp.Description
import RealtimeApp.Proofs.GrammarWalk

/-!
# Located errors

An error of the grammar says where it comes from: the error of a value stands under the note of
its key, every other one stands alone, and the entries before it were accepted
(`error_located`).  There are at most three notes, as constructs lie no deeper in each other than
a field of a task in the tasks of an application.
-/

namespace RealtimeApp

/-! ## Chains -/

/-- The errors of a rule have no more notes than this. -/
def Rule.NotesAtMost {α : Type} (n : Nat) (rule : Rule α) : Prop :=
  ∀ tokens e, rule.value tokens = .error e → e.notes.length ≤ n

namespace Rule

variable {α β : Type} {n : Nat}

theorem NotesAtMost.void {rule : Rule α} (h : rule.NotesAtMost n) : rule.void.NotesAtMost n :=
  fun tokens e he => h tokens e (void_value_eq_error_iff.1 he)

theorem NotesAtMost.mono {rule : Rule α} {m : Nat} (h : rule.NotesAtMost n) (hle : n ≤ m) :
    rule.NotesAtMost m := fun tokens e he => Nat.le_trans (h tokens e he) hle

theorem notesAtMost_fail (cause : Cause) : (fail cause : Rule α).NotesAtMost n := by
  intro tokens e he
  cases he
  exact Nat.zero_le n

theorem notesAtMost_pure (a : α) : (Pure.pure a : Rule α).NotesAtMost n := by
  intro tokens e he
  cases he

theorem NotesAtMost.bind {rule : Rule α} {next : α → Rule β} (h : rule.NotesAtMost n)
    (hnext : ∀ a, (next a).NotesAtMost n) : (rule >>= next).NotesAtMost n := by
  intro tokens e he
  rcases hrun : rule.run tokens with ⟨e' | a, rest⟩
  · rw [value, run_bind_of_error hrun] at he
    cases he
    exact h tokens e (congrArg Prod.fst hrun)
  · rw [value, run_bind_of_ok hrun] at he
    exact hnext a rest e he

theorem notesAtMost_ofNext {read : Option Token → Except ParseError α}
    (h : ∀ found e, read found = .error e → e.notes.length ≤ n) : (ofNext read).NotesAtMost n :=
  fun tokens e he => h tokens.head? e he

end Rule

/-- The errors of a group have no more notes than those of its members. -/
theorem FailsInGroup.length_notes_le {d : Delimiter}
    {Inside : List Token → ParseError → Prop} {n : Nat}
    (h : ∀ members e, Inside members e → e.notes.length ≤ n) {tokens : List Token}
    {e : ParseError} (hfails : FailsInGroup d Inside tokens e) : e.notes.length ≤ n := by
  cases hfails with
  | noGroup | otherGroup => exact Nat.zero_le n
  | inside hinside => exact h _ e hinside

namespace Listing

/-- A listing adds at most one note. -/
theorem length_notes_le {listing : Listing} {n : Nat}
    (h : ∀ key rule, listing.rule? key = some rule → rule.NotesAtMost n) (members : List Token)
    (e : ParseError) (hfails : listing.Fails members e) : e.notes.length ≤ n + 1 := by
  obtain ⟨seen, left, -, hstop⟩ := hfails
  cases hstop with
  | value hopens hvalue => exact Nat.succ_le_succ (h _ _ hopens.known _ _ hvalue)
  | _ => exact Nat.zero_le _

theorem notesAtMost_of_lookup {fields : List (Bytes × Rule Unit)} {n : Nat}
    (h : ∀ entry ∈ fields, entry.2.NotesAtMost n) (key : Bytes) (rule : Rule Unit)
    (hlookup : fields.lookup key = some rule) : rule.NotesAtMost n := by
  obtain ⟨before, after, rfl, -⟩ := List.lookup_eq_some_iff.1 hlookup
  exact h (key, rule) (by simp)

/-- The note of a stop is not that of a key that was accepted. -/
theorem StopsAt.head?_notes_ne {listing : Listing} (hnote : Function.Injective listing.note)
    {seen : List Bytes} {left : List Token} {e : ParseError} (h : listing.StopsAt seen left e)
    {key : Bytes} (hkey : key ∈ seen) : e.notes.head? ≠ some (listing.note key) := by
  cases h with
  | value hopens _ =>
      intro hhead
      have hsame := hnote (Option.some.inj hhead)
      rw [hsame] at hopens
      exact hopens.new hkey
  | _ => simp [ParseError.ofCause]

end Listing

theorem Storage.StopsAt.head?_notes_ne {seen : List Bytes} {left : List Token} {e : ParseError}
    (h : StopsAt seen left e) {key : Bytes} (hkey : key ∈ seen) :
    e.notes.head? ≠ some (.entry key) := by
  cases h with
  | value _ hnew _ _ =>
      intro hhead
      cases hhead
      exact hnew hkey
  | _ => simp [ParseError.ofCause]

/-! ## How many notes -/

namespace Grammar

open Rule

theorem notesAtMost_path : path.NotesAtMost 0 := by
  intro tokens e he
  simp only [value, path] at he
  split at he
  · cases he
    exact Nat.le_refl 0
  · cases he

theorem notesAtMost_upTo (stop : TokenKind) : (upTo stop).NotesAtMost 0 := by
  intro tokens e he
  simp only [value, upTo] at he
  split at he
  · cases he
    exact Nat.le_refl 0
  · cases he

theorem notesAtMost_filledUpTo (stop : TokenKind) (ifEmpty : Cause) :
    (filledUpTo stop ifEmpty).NotesAtMost 0 := by
  apply (notesAtMost_upTo stop).bind
  intro fragment
  split
  · exact notesAtMost_fail ifEmpty
  · exact notesAtMost_pure fragment

theorem notesAtMost_static : static.NotesAtMost 0 :=
  (notesAtMost_filledUpTo _ _).bind fun _ =>
    (notesAtMost_filledUpTo _ _).bind fun _ => notesAtMost_pure _

theorem notesAtMost_bool : bool.NotesAtMost 0 := by
  apply notesAtMost_ofNext
  intro found e he
  unfold readBool at he
  split at he
  · cases he
  · cases he
    exact Nat.le_refl 0

theorem notesAtMost_byte : byte.NotesAtMost 0 := by
  apply notesAtMost_ofNext
  intro found e he
  unfold readByte at he
  split at he
  · cases he
    exact Nat.le_refl 0
  · split at he
    · cases he
      exact Nat.le_refl 0
    · cases he

theorem length_notes_readIdents (before : NameSet) (tokens : List Token) (e : ParseError)
    (he : readIdents before tokens = .error e) : e.notes.length ≤ 0 := by
  fun_induction readIdents before tokens with
  | case5 before first l hident hnot separator rest hcomma ih => exact ih he
  | case1 | case4 => cases he
  | case2 | case3 | case6 =>
      cases he
      exact Nat.le_refl 0

theorem notesAtMost_idents : idents.NotesAtMost 0 := by
  intro tokens e he
  have hfails := (value_delimited_eq_error_iff fun members e => Iff.rfl).1 he
  exact hfails.length_notes_le (length_notes_readIdents .empty)

theorem notesAtMost_statics : statics.NotesAtMost 1 := by
  intro tokens e he
  refine (statics_value_eq_error_iff.1 he).length_notes_le ?_
  rintro members e ⟨seen, left, -, hstop⟩
  cases hstop with
  | value _ _ _ hvalue => exact Nat.succ_le_succ (notesAtMost_static _ _ hvalue)
  | _ => exact Nat.zero_le _

theorem notesAtMost_init : init.NotesAtMost 1 := by
  intro tokens e he
  refine (init_value_eq_error_iff.1 he).length_notes_le (Listing.length_notes_le ?_)
  apply Listing.notesAtMost_of_lookup
  simp only [List.forall_mem_cons]
  exact ⟨notesAtMost_path.void, by simp⟩

theorem notesAtMost_idle : idle.NotesAtMost 2 := by
  intro tokens e he
  refine (idle_value_eq_error_iff.1 he).length_notes_le (Listing.length_notes_le ?_)
  apply Listing.notesAtMost_of_lookup
  simp only [List.forall_mem_cons]
  exact ⟨notesAtMost_path.void.mono (by omega), notesAtMost_statics.void,
    notesAtMost_idents.void.mono (by omega), by simp⟩

theorem notesAtMost_task : task.NotesAtMost 1 := by
  intro tokens e he
  refine (task_value_eq_error_iff.1 he).length_notes_le (Listing.length_notes_le ?_)
  apply Listing.notesAtMost_of_lookup
  simp only [List.forall_mem_cons]
  exact ⟨notesAtMost_bool.void, notesAtMost_byte.void, notesAtMost_idents.void, by simp⟩

theorem notesAtMost_tasks : tasks.NotesAtMost 2 := by
  intro tokens e he
  refine (tasks_value_eq_error_iff.1 he).length_notes_le (Listing.length_notes_le ?_)
  intro key rule hrule
  obtain rfl : task.void = rule := Option.some.inj hrule
  exact notesAtMost_task.void

theorem notesAtMost_app : app.NotesAtMost 3 := by
  intro tokens e he
  refine (app_value_eq_error_iff.1 he).length_notes_le (Listing.length_notes_le ?_)
  apply Listing.notesAtMost_of_lookup
  simp only [List.forall_mem_cons]
  exact ⟨notesAtMost_path.void.mono (by omega), notesAtMost_idle.void,
    notesAtMost_init.void.mono (by omega), notesAtMost_statics.void.mono (by omega),
    notesAtMost_tasks.void, by simp⟩

end Grammar

/-! ## Whole descriptions -/

/-- The errors of whole descriptions: those of the block, and that of a token behind it. -/
theorem App.ofTokens_eq_error_iff {tokens : List Token} {e : ParseError} :
    App.ofTokens tokens = .error e ↔
      Grammar.app.value tokens = .error e ∨
        ∃ app extra rest, Grammar.app.run tokens = (.ok app, extra :: rest) ∧
          e = .ofCause (.trailing extra) := by
  rw [App.ofTokens, Rule.value]
  rcases Grammar.app.run tokens with ⟨e' | app, _ | ⟨extra, rest⟩⟩
  · simp
  · simp
  · simp
  · constructor
    · intro h
      cases h
      exact .inr ⟨app, extra, rest, rfl, rfl⟩
    · rintro (h | ⟨_, _, _, hrun, rfl⟩)
      · cases h
      · cases hrun
        rfl

/-- The part of a text before its first zero byte. -/
def IsCutAtZero (text cut : Bytes) : Prop :=
  ∃ behind, text = cut ++ behind ∧ 0 ∉ cut ∧ ∀ b ∈ behind.head?, b = 0

theorem ParseError.isCutAtZero_line (e : ParseError) :
    IsCutAtZero ((Bytes.ofString ": ").intercalate e.chain) e.line := by
  refine ⟨((Bytes.ofString ": ").intercalate e.chain).dropWhile (· != 0), ?_, ?_, ?_⟩
  · exact (List.takeWhile_append_dropWhile).symm
  · intro hzero
    have hall := List.all_eq_true.1 List.all_takeWhile 0 hzero
    simp at hall
  · intro b hb
    have hhead := List.head?_dropWhile_not (· != 0) ((Bytes.ofString ": ").intercalate e.chain)
    rw [hb] at hhead
    simpa using hhead

/-- Errors are located.  Each rule with entries fails exactly where the walk through its tokens
stops: behind entries that were accepted, with the error of a value under the note of its key, or
with an error of its own without a note.  So no note is that of an accepted key, and a description
is refused with at most three notes, on one line that a zero byte would end. -/
theorem error_located :
    (∀ tokens e, App.ofTokens tokens = .error e ↔
      FailsInGroup .brace Listing.app.Fails tokens e ∨
        ∃ app extra rest, Grammar.app.run tokens = (.ok app, extra :: rest) ∧
          e = .ofCause (.trailing extra)) ∧
    (∀ tokens e, Grammar.idle.value tokens = .error e ↔
      FailsInGroup .brace Listing.idle.Fails tokens e) ∧
    (∀ tokens e, Grammar.init.value tokens = .error e ↔
      FailsInGroup .brace Listing.init.Fails tokens e) ∧
    (∀ tokens e, Grammar.tasks.value tokens = .error e ↔
      FailsInGroup .brace Listing.tasks.Fails tokens e) ∧
    (∀ tokens e, Grammar.task.value tokens = .error e ↔
      FailsInGroup .brace Listing.task.Fails tokens e) ∧
    (∀ tokens e, Grammar.statics.value tokens = .error e ↔
      FailsInGroup .brace Storage.Fails tokens e) ∧
    (∀ listing ∈ [Listing.app, .idle, .init, .tasks, .task], ∀ seen left e,
      listing.StopsAt seen left e → ∀ key ∈ seen, e.notes.head? ≠ some (listing.note key)) ∧
    (∀ seen left e, Storage.StopsAt seen left e → ∀ key ∈ seen, e.notes.head? ≠ some (.entry key)) ∧
    ∀ tokens e, App.ofTokens tokens = .error e →
      e.notes.length ≤ 3 ∧ e.chain.getLast? = some e.message ∧
        IsCutAtZero ((Bytes.ofString ": ").intercalate e.chain) e.line := by
  refine ⟨?_, fun _ _ => Grammar.idle_value_eq_error_iff,
    fun _ _ => Grammar.init_value_eq_error_iff, fun _ _ => Grammar.tasks_value_eq_error_iff,
    fun _ _ => Grammar.task_value_eq_error_iff, fun _ _ => Grammar.statics_value_eq_error_iff,
    ?_, ?_, ?_⟩
  · intro tokens e
    rw [App.ofTokens_eq_error_iff, Grammar.app_value_eq_error_iff]
  · intro listing hlisting seen left e hstop key hkey
    refine hstop.head?_notes_ne ?_ hkey
    simp only [List.mem_cons, List.not_mem_nil, or_false] at hlisting
    rcases hlisting with rfl | rfl | rfl | rfl | rfl
    all_goals
      intro a b hab
      cases hab
      rfl
  · intro seen left e hstop key hkey
    exact hstop.head?_notes_ne hkey
  · intro tokens e he
    refine ⟨?_, by simp [ParseError.chain], e.isCutAtZero_line⟩
    rcases App.ofTokens_eq_error_iff.1 he with hvalue | ⟨app, extra, rest, -, rfl⟩
    · exact Grammar.notesAtMost_app tokens e hvalue
    · exact Nat.zero_le 3

theorem Description.errors_parse_of_ok {tokens : List Token} {app : App}
    (h : App.ofTokens tokens = .ok app) : (ofTokens tokens).parse.2.errors = [] := by
  have hread : App.ofReading tokens [] = .ok app := congrArg (·.mapError Refusal.ofGrammar) h
  simp only [parse, ofTokens, hread]

theorem Description.errors_parse_of_error {tokens : List Token} {e : ParseError}
    (h : App.ofTokens tokens = .error e) : (ofTokens tokens).parse.2.errors = e.chain := by
  have hread : App.ofReading tokens [] = .error (.ofGrammar e) :=
    congrArg (·.mapError Refusal.ofGrammar) h
  simp only [parse, ofTokens, hread, Refusal.chain]

/-- The value of a field of a task is refused under three notes. -/
theorem error_located_small :
    let tokens := (lex (Bytes.ofString "\x7btasks: \x7bt: \x7benabled: 1\x7d\x7d\x7d") 64).1
    ∃ e, App.ofTokens tokens = .error e ∧ FailsInGroup .brace Listing.app.Fails tokens e ∧
      e.chain = [Bytes.ofString "parsing `tasks`", Bytes.ofString "parsing task `t`",
        Bytes.ofString "parsing `enabled`",
        Bytes.ofString "expected boolean, found `1` (Integer) at 1:23"] ∧
      e.notes.length ≤ 3 := by
  intro tokens
  have herrors : (Description.ofTokens tokens).parse.2.errors =
      [Bytes.ofString "parsing `tasks`", Bytes.ofString "parsing task `t`",
        Bytes.ofString "parsing `enabled`",
        Bytes.ofString "expected boolean, found `1` (Integer) at 1:23"] := by
    decide +kernel
  cases hread : App.ofTokens tokens with
  | ok app =>
      rw [Description.errors_parse_of_ok hread] at herrors
      cases herrors
  | error e =>
      have hchain := Description.errors_parse_of_error hread
      refine ⟨e, rfl, ?_, hchain.symm.trans herrors, ?_⟩
      · rcases (error_located.1 tokens e).1 hread with hfails | ⟨_, _, _, _, rfl⟩
        · exact hfails
        · rw [hchain] at herrors
          cases herrors
      · exact (error_located.2.2.2.2.2.2.2.2 tokens e hread).1

/-- A zero byte in a string literal ends the line of the error that names the literal. -/
theorem line_ends_at_zero :
    ∃ e, App.ofTokens [.leaf ⟨.string, [Byte.quote, 0, Byte.quote], some (.text [0]), [], ⟨1, 1⟩⟩] =
        .error e ∧
      e.line ≠ (Bytes.ofString ": ").intercalate e.chain :=
  ⟨_, rfl, by decide⟩

end RealtimeApp
