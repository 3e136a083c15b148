import ExprLang.Language
import ExprLang.Proofs.Lexing.Onward

/-!
# Progress

What the progress of a lexer says between two calls, whichever they are. The cursor never moves
back. As long as the run has not ended, the count of complete tokens never gets smaller, and it is
truthful: with so many tokens the list of the root begins in the end, whatever else is called, and
if the text ended here there would be one more exactly if a context is open or plain text is being
read. When the run ends the pending tokens go to the root, and the count falls to zero.

Main definitions:
* `LexState.openToken?`: the token of the root that is not complete;
* `LexInput.Follows`: one state comes after another one.

Main results:
* `LexInput.Reads.tokenList_root_stop`: the list of the root if the text ends here;
* `LexInput.Reads.follows`: what calls lead to;
* `LexInput.progress_after`: the progress before and after calls.
-/

namespace ExprLang

open LexState

/-- The token of the root that is not complete: the outermost open context, else plain text. -/
def LexState.openToken? (state : LexState) : Option Token :=
  match state.stack.getLast? with
  | some context => some ⟨⟨context.start, state.cursor⟩, .node context.node⟩
  | none => state.textStart.map fun start => ⟨⟨start, state.cursor⟩, .text⟩

namespace LexInput

variable {input : LexInput} {state : LexState}

section Ending

/-- The tokens that are left when all contexts are closed: the outermost one is the last of them. -/
theorem pending_closeAll (state : LexState) (hstacked : Stacked state.stack state.pending.size)
    (stop : Nat) :
    (closeAll stop state.stack.length state).pending.toList =
      state.pending.toList.take (rootCount state.stack state.pending.size) ++
        (state.stack.getLast?.map fun context =>
          ⟨⟨context.start, stop⟩, .node context.node⟩).toList := by
  generalize hstack : state.stack = stack
  induction stack generalizing state with
  | nil =>
      have hall : rootCount [] state.pending.size = state.pending.toList.length :=
        Array.length_toList.symm
      rw [hall, List.take_length]
      exact (List.append_nil _).symm
  | cons context outer ih =>
      rw [hstack] at hstacked
      have hle : context.first ≤ state.pending.toList.length := hstacked.1
      have hpending : (state.closeContext none stop).pending.toList =
          state.pending.toList.take context.first ++
            [⟨⟨context.start, stop⟩, .node context.node⟩] := by
        simp [LexState.closeContext, hstack, LexState.pushToken]
      have houter : (state.closeContext none stop).stack = outer := by
        rw [stack_closeContext, hstack, List.tail_cons]
      have hrest := ih (state.closeContext none stop)
        (stacked_closeContext (hstack ▸ hstacked) none stop) houter
      rw [List.length_cons, closeAll, hrest, hpending, rootCount_cons]
      cases outer with
      | nil =>
          have hsize : rootCount [] (state.closeContext none stop).pending.size =
              (state.closeContext none stop).pending.toList.length := Array.length_toList.symm
          rw [hsize, hpending, List.take_length]
          exact List.append_nil _
      | cons next outer =>
          have hroot : rootCount (next :: outer) context.first ≤ context.first :=
            rootCount_le hstacked.2
          rw [rootCount_cons] at hroot
          rw [rootCount_cons, rootCount_cons, List.getLast?_cons_cons,
            List.take_append_of_le_length, List.take_take, Nat.min_eq_left hroot]
          rw [List.length_take]
          exact Nat.le_min.mpr ⟨hroot, hroot.trans hle⟩

/-- If the text ends here, the root has its complete tokens, and the one that is not complete. -/
theorem Reads.tokenList_root_stop (h : input.Reads state) :
    (input.stop state).forest.tokenList Forest.root =
      state.pending.toList.take state.progress.topLevel ++ state.openToken?.toList := by
  obtain ⟨hstacked, hdraft⟩ := h.draft_reported
  have hclosed := draft_closeAll (input.reported state) hstacked hdraft
  have hframed := Framed.of_draft hclosed
  have hindex := (hframed.header _ (List.mem_singleton_self _)).1
  rw [stop_eq h.unfinished, LexState.forest_closeRoot,
    Forest.tokenList_closeNode _ hframed.packed hindex, if_pos rfl,
    pending_closeAll (input.reported state) hstacked]
  have hstack : (input.reported state).stack = state.stack := stack_flushText state
  rw [hstack, topLevel_progress]
  unfold LexState.openToken?
  have hpending : (input.reported state).pending = state.flushText.pending := rfl
  rw [hpending]
  cases hlast : state.stack.getLast? with
  | none =>
      have hnil : state.stack = [] := List.getLast?_eq_none_iff.mp hlast
      have hroot : ∀ size, rootCount [] size = size := fun _ => rfl
      rw [hnil, hroot, hroot, ← Array.length_toList, ← Array.length_toList, List.take_length,
        List.take_length]
      unfold LexState.flushText
      cases state.textStart with
      | none => rfl
      | some start => simp [LexState.pushToken]
  | some context =>
      have hroot : ∀ size, rootCount state.stack size = context.first := by
        intro size
        unfold rootCount
        rw [hlast]
      have hle := rootCount_le h.stacked
      rw [hroot] at hle
      rw [hroot, hroot]
      refine congrArg (· ++ _) ?_
      unfold LexState.flushText
      cases state.textStart with
      | none => rfl
      | some start =>
          simp only [LexState.pushToken, Array.toList_push]
          exact List.take_append_of_le_length hle

/-- A run that has ended has no tokens pending. -/
theorem Reads.topLevel_stop (h : input.Reads state) :
    (input.stop state).progress.topLevel = 0 := by
  obtain ⟨hstacked, hdraft⟩ := h.draft_reported
  have hstack := (onward_closeAll (input.reported state) hstacked hdraft).2
  have hclosed : ∀ (s : LexState) (stop : Nat), s.stack = [] →
      (s.closeRoot stop).progress.topLevel = 0 := by
    intro s stop hs
    have hnone : (s.closeRoot stop).stack = [] := hs
    rw [topLevel_progress, hnone]
    rfl
  rw [stop_eq h.unfinished]
  exact hclosed _ _ hstack

end Ending

/-- No step moves the cursor back. -/
theorem cursor_le_step (input : LexInput) (state : LexState) :
    state.cursor ≤ (input.step state).cursor := by
  have hflushed := (samePlace_flushText state).1
  by_cases hopen : state.finished = false
  · rcases step_cases input hopen with
      ⟨-, hstop⟩ | ⟨c, rest, -, ⟨-, hskip⟩ | ⟨id, -, hread⟩ | htext⟩
    · rw [hstop, cursor_stop]
    · rw [hskip]
      exact hflushed.symm.le.trans (Nat.le_add_right _ _)
    · rw [hread, readDelimiter]
      simp only [(samePlace_placeDelimiter _ _ _ _ _).cursor]
      split
      · exact hflushed.symm.le.trans (Nat.le_add_right _ _)
      · exact hflushed.symm.le.trans (Nat.le_add_right _ _)
    · rw [htext]
      exact Nat.le_add_right _ _
  · rw [step_of_finished input state (by simpa using hopen)]

/-- A lexer reads on, or its run has ended and no tokens are pending. -/
theorem reads_or_ended (input : LexInput) (calls : List LexCall) :
    input.Reads (input.after calls) ∨
      (input.after calls).finished = true ∧ (input.after calls).progress.topLevel = 0 := by
  refine after_induction (P := fun s => input.Reads s ∨ s.finished = true ∧ s.progress.topLevel = 0)
    ?_ ?_ ?_ calls
  · unfold start
    split
    · exact Or.inl (reads_fresh input)
    · exact Or.inr ⟨rfl, rfl⟩
  · rintro s (hreads | ⟨hdone, htop⟩)
    · rcases hreads.step with hnext | hstop
      · exact Or.inl hnext
      · rw [hstop]
        exact Or.inr ⟨finished_stop, hreads.topLevel_stop⟩
    · rw [step_of_finished input s hdone]
      exact Or.inr ⟨hdone, htop⟩
  · rintro s (hreads | ⟨hdone, htop⟩)
    · exact Or.inr ⟨finished_stop, hreads.topLevel_stop⟩
    · rw [stop_of_finished input s hdone]
      exact Or.inr ⟨hdone, htop⟩

/-- One state comes after another one: by reading on, perhaps up to a place where the run ended. -/
def Follows (input : LexInput) (past now : LexState) : Prop :=
  ∃ last, input.Reads last ∧ Onward past last ∧ past.cursor ≤ last.cursor ∧
    (now = last ∨ now = input.stop last)

namespace Follows

variable {past now : LexState}

theorem refl (h : input.Reads state) : input.Follows state state :=
  ⟨state, h, .refl state, le_rfl, .inl rfl⟩

theorem step (h : input.Follows past now) : input.Follows past (input.step now) := by
  obtain ⟨last, hreads, honward, hcursor, rfl | rfl⟩ := h
  · rcases hreads.step_onward with ⟨hnext, hon⟩ | hstop
    · exact ⟨_, hnext, honward.trans hon, hcursor.trans (cursor_le_step input now), .inl rfl⟩
    · exact ⟨now, hreads, honward, hcursor, .inr hstop⟩
  · rw [step_of_finished input _ finished_stop]
    exact ⟨last, hreads, honward, hcursor, .inr rfl⟩

theorem stop (h : input.Follows past now) : input.Follows past (input.stop now) := by
  obtain ⟨last, hreads, honward, hcursor, rfl | rfl⟩ := h
  · exact ⟨now, hreads, honward, hcursor, .inr rfl⟩
  · rw [stop_of_finished input _ finished_stop]
    exact ⟨last, hreads, honward, hcursor, .inr rfl⟩

theorem cursor_le (h : input.Follows past now) : past.cursor ≤ now.cursor := by
  obtain ⟨last, -, -, hcursor, rfl | rfl⟩ := h
  · exact hcursor
  · rw [cursor_stop]
    exact hcursor

/-- As long as the run has not ended, no complete token of the root is lost. -/
theorem topLevel_le (h : input.Follows past now) (hopen : now.finished = false) :
    past.progress.topLevel ≤ now.progress.topLevel := by
  obtain ⟨last, -, honward, -, rfl | rfl⟩ := h
  · exact honward.topLevel_le
  · rw [finished_stop] at hopen
    cases hopen

/-- When the run has ended, the tokens that were complete before stand in front in the root. -/
theorem endsIn (h : input.Follows past now) (hdone : now.finished = true) :
    EndsIn past now.forest := by
  obtain ⟨last, hreads, honward, -, rfl | rfl⟩ := h
  · rw [hreads.unfinished] at hdone
    cases hdone
  · exact honward.endsIn hreads.endsIn_stop

end Follows

/-- What holds after some calls, and is preserved by steps and stops, holds after more calls. -/
theorem after_append_induction {P : LexState → Prop} {calls : List LexCall}
    (h : P (input.after calls)) (hstep : ∀ s, P s → P (input.step s))
    (hstop : ∀ s, P s → P (input.stop s)) (more : List LexCall) :
    P (input.after (calls ++ more)) := by
  have happend : input.after (calls ++ more) = more.foldl input.call (input.after calls) :=
    List.foldl_append
  rw [happend]
  exact List.foldlRecOn more input.call h fun _ hs c _ => call_preserves hstep hstop c hs

/-- What calls lead to comes after the state in which they are made. -/
theorem Reads.follows {calls : List LexCall} (h : input.Reads (input.after calls))
    (more : List LexCall) : input.Follows (input.after calls) (input.after (calls ++ more)) :=
  after_append_induction (P := input.Follows (input.after calls)) (.refl h)
    (fun _ => Follows.step) (fun _ => Follows.stop) more

/-- When the run has ended, calls do nothing. -/
theorem after_append_of_finished {calls : List LexCall}
    (hdone : (input.after calls).finished = true) (more : List LexCall) :
    input.after (calls ++ more) = input.after calls := by
  refine after_append_induction (P := fun s => s = input.after calls) rfl ?_ ?_ more
  · rintro s rfl
    exact step_of_finished input _ hdone
  · rintro s rfl
    exact stop_of_finished input _ hdone

/--
The progress between any calls. The cursor never moves back. Up to the end of the run the count of
complete tokens never gets smaller, and is the number of tokens that are complete: all that the root
would have if the text ended here, but the one of an open context or of plain text, and in the end
the root begins with them. When the run has ended, the count is zero.
-/
theorem progress_after (input : LexInput) (calls more : List LexCall) :
    let past := input.after calls
    let now := input.after (calls ++ more)
    past.progress.cursor ≤ now.progress.cursor ∧
      (now.finished = false → past.progress.topLevel ≤ now.progress.topLevel) ∧
      (past.finished = false → ∃ complete, complete.length = past.progress.topLevel ∧
        (input.stop past).forest.tokenList Forest.root = complete ++ past.openToken?.toList ∧
        complete <+: (input.finish (calls ++ more)).forest.tokenList Forest.root) ∧
      (past.finished = true → now = past ∧ past.progress.topLevel = 0) := by
  intro past now
  rcases reads_or_ended input calls with hreads | ⟨hdone, htop⟩
  · have hfollows : input.Follows past now := hreads.follows more
    have hended : input.Follows past (input.final (calls ++ more)) :=
      runSteps_preserves (P := input.Follows past) (fun _ => Follows.step) _ hfollows
    refine ⟨hfollows.cursor_le, hfollows.topLevel_le, ?_, ?_⟩
    · intro _
      refine ⟨_, ?_, hreads.tokenList_root_stop, ?_⟩
      · rw [List.length_take, Array.length_toList]
        exact Nat.min_eq_left (rootCount_le hreads.stacked)
      · rw [← (hended.endsIn (finished_final input _)).roots]
        exact List.take_prefix _ _
    · intro hdone
      rw [hreads.unfinished] at hdone
      cases hdone
  · have hsame : now = past := after_append_of_finished hdone more
    refine ⟨by rw [hsame], fun hopen => by rw [hsame], ?_, fun _ => ⟨hsame, htop⟩⟩
    intro hopen
    rw [hdone] at hopen
    cases hopen

/-- The end of the run takes the count to zero, with two tokens in the root. -/
theorem progress_after_ended :
    let input := Language.input "a b"
    (input.after [.runSteps 2]).progress.topLevel = 1 ∧
      (input.after [.runSteps 2, .run]).progress.topLevel = 0 ∧
      ((input.after [.runSteps 2, .run]).forest.tokenList Forest.root).length = 2 := by
  decide +kernel

end LexInput
end ExprLang
