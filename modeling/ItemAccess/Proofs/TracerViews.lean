import ItemAccess.Trace.Tracer
import Mathlib.Data.List.Induction
import Mathlib.Data.List.DropRight

/-!
# Tracers are views of one history

What a tracer is told, and when it is cleared, is a history. Each tracer shows a part of it that can be
said without the tracer: a recording the first events since the last clear, a profile how often each kind
of event occurs, a log the lines of the first events with a notice above the last of them.
-/

namespace ItemAccess

/-- A tracer is told an event, or is cleared. -/
inductive Signal where
  | event (e : Event)
  | clear
deriving DecidableEq

namespace Signal

def event? : Signal → Option Event
  | event e => some e
  | clear => none

def events (signals : List Signal) : List Event :=
  signals.filterMap event?

def sinceClear (signals : List Signal) : List Event :=
  events (signals.rtakeWhile (· ≠ clear))

end Signal

namespace Tracer

def heed : Tracer → Signal → Tracer
  | t, .event e => t.note e
  | t, .clear => t.clear

def heedAll (t : Tracer) (signals : List Signal) : Tracer :=
  signals.foldl heed t

end Tracer

namespace Event

def directKind? : Event → Option BuiltinKind
  | direct kind _ => some kind
  | _ => none

def way? : Event → Option (Operation × Route)
  | dispatch op route _ => some (op, route)
  | _ => none

def failureKind? : Event → Option FailureKind
  | failure _ f => some f.kind
  | _ => none

end Event

variable {signals : List Signal} {es : List Event} {e : Event} {k : Nat}

namespace Signal

@[simp]
theorem events_append (l l' : List Signal) : events (l ++ l') = events l ++ events l' :=
  List.filterMap_append

@[simp]
theorem events_event (e : Event) : events [event e] = [e] := rfl

@[simp]
theorem events_clear : events [clear] = [] := rfl

@[simp]
theorem sinceClear_append_event (signals : List Signal) (e : Event) :
    sinceClear (signals ++ [event e]) = sinceClear signals ++ [e] := by
  rw [sinceClear, List.rtakeWhile_concat_pos _ _ _ (by simp), events_append]
  rfl

@[simp]
theorem sinceClear_append_clear (signals : List Signal) : sinceClear (signals ++ [clear]) = [] := by
  rw [sinceClear, List.rtakeWhile_concat_neg _ _ _ (by simp)]
  rfl

theorem sinceClear_map_event (es : List Event) : sinceClear (es.map event) = es := by
  induction es using List.reverseRecOn with
  | nil => rfl
  | append_singleton es e ih => rw [List.map_append, List.map_singleton, sinceClear_append_event, ih]

end Signal

open Signal

theorem Tracer.heedAll_append (t : Tracer) (signals : List Signal) (s : Signal) :
    t.heedAll (signals ++ [s]) = (t.heedAll signals).heed s := by
  rw [heedAll, List.foldl_append, List.foldl_cons, List.foldl_nil, heedAll]

namespace Recording

/-- A recording of the first events of a list is one of the first events of the longer list. -/
theorem note_take (k : Nat) (es : List Event) (e : Event) :
    (⟨some k, es.take k⟩ : Recording).note e = ⟨some k, (es ++ [e.recorded]).take k⟩ := by
  unfold note hasRoom
  by_cases hk : es.length < k
  · have htake : (es ++ [e.recorded]).take k = es ++ [e.recorded] :=
      List.take_of_length_le (by simp; omega)
    simp [htake, List.take_of_length_le hk.le, hk]
  · have hlength : (es.take k).length = k := by simp; omega
    simp [hlength, List.take_append_of_le_length (not_lt.1 hk)]

end Recording

theorem Tracer.heedAll_recording (signals : List Signal) :
    (recording {}).heedAll signals =
      recording { events := (sinceClear signals).map Event.recorded } := by
  induction signals using List.reverseRecOn with
  | nil => rfl
  | append_singleton signals s ih =>
    rw [heedAll_append, ih]
    cases s with
    | event e => rw [sinceClear_append_event, List.map_append]; rfl
    | clear => rw [sinceClear_append_clear]; rfl

theorem Tracer.heedAll_recording_limit (k : Nat) (signals : List Signal) :
    (recording { limit := some k }).heedAll signals =
      recording { limit := some k, events := ((sinceClear signals).map Event.recorded).take k } := by
  induction signals using List.reverseRecOn with
  | nil => simp [heedAll, sinceClear, events]
  | append_singleton signals s ih =>
    rw [heedAll_append, ih]
    cases s with
    | event e =>
      rw [sinceClear_append_event, heed, note, Recording.note_take, List.map_append, List.map_singleton]
    | clear => rw [sinceClear_append_clear, List.map_nil, List.take_nil]; rfl

namespace Tally

variable {α : Type} [DecidableEq α] {t : Tally α} {l : List α} {a b : α}

/-- The counters say how often each subject is in a list. A subject that is not there has none. -/
structure Counts (t : Tally α) (l : List α) : Prop where
  lookup : ∀ a, t.lookup a = if a ∈ l then some (l.count a) else none
  total : t.total = l.length

theorem Counts.nil : Counts ([] : Tally α) [] := ⟨by simp, rfl⟩

theorem lookup_cons (row : α × Nat) (t : Tally α) (b : α) :
    (row :: t).lookup b = if b = row.1 then some row.2 else t.lookup b := by
  rw [List.lookup_cons]
  by_cases hb : b = row.1
  · simp [hb]
  · rw [if_neg hb, beq_false_of_ne hb]

theorem lookup_bump (t : Tally α) (a b : α) :
    (t.bump a).lookup b = if b = a then some (t.count a + 1) else t.lookup b := by
  induction t with
  | nil => simp [bump, count, lookup_cons]
  | cons row t ih =>
    obtain ⟨c, n⟩ := row
    by_cases hc : c = a
    · subst hc
      by_cases hb : b = c <;> simp [bump, count, lookup_cons, hb]
    · have hcount : count ((c, n) :: t) a = count t a := by simp [count, lookup_cons, Ne.symm hc]
      rw [bump, if_neg hc, lookup_cons, ih, hcount, lookup_cons]
      by_cases hb : b = c
      · simp [hb, hc]
      · simp [hb]

theorem total_bump (t : Tally α) (a : α) : (t.bump a).total = t.total + 1 := by
  induction t with
  | nil => rfl
  | cons row t ih =>
    obtain ⟨c, n⟩ := row
    have htotal (n : Nat) (t : Tally α) : total ((c, n) :: t) = n + total t := rfl
    by_cases hc : c = a
    · rw [bump, if_pos hc, htotal, htotal]
      omega
    · rw [bump, if_neg hc, htotal, htotal, ih, Nat.add_assoc]

theorem Counts.count (h : t.Counts l) (a : α) : t.count a = l.count a := by
  rw [Tally.count, h.lookup]
  split_ifs with ha
  · rfl
  · exact (List.count_eq_zero.2 ha).symm

theorem Counts.bump (h : t.Counts l) (a : α) : (t.bump a).Counts (l ++ [a]) where
  lookup b := by
    rw [lookup_bump, h.lookup, h.count]
    by_cases hb : b = a
    · simp [hb]
    · simp [hb, List.count_append, Ne.symm hb]
  total := by rw [total_bump, h.total, List.length_append, List.length_singleton]

end Tally

structure Profile.Counts (p : Profile) (es : List Event) : Prop where
  direct : p.direct.Counts (es.filterMap Event.directKind?)
  dispatches : p.dispatches.Counts (es.filterMap Event.way?)
  failures : p.failures.Counts (es.filterMap Event.failureKind?)

/-- An event moves the counter of its own kind, and no other. -/
theorem Profile.Counts.note {p : Profile} (h : p.Counts es) (e : Event) :
    (p.note e).Counts (es ++ [e]) := by
  have hcounts {α : Type} [DecidableEq α] {t : Tally α} {subject? : Event → Option α}
      (ht : t.Counts (es.filterMap subject?)) (hnone : subject? e = none) :
      t.Counts ((es ++ [e]).filterMap subject?) := by
    rwa [List.filterMap_append, List.filterMap_cons_none hnone, List.filterMap_nil, List.append_nil]
  have hbump {α : Type} [DecidableEq α] {t : Tally α} {subject? : Event → Option α} {a : α}
      (ht : t.Counts (es.filterMap subject?)) (hsome : subject? e = some a) :
      (t.bump a).Counts ((es ++ [e]).filterMap subject?) := by
    rw [List.filterMap_append, List.filterMap_cons_some hsome, List.filterMap_nil]
    exact ht.bump a
  cases e with
  | direct => exact ⟨hbump h.direct rfl, hcounts h.dispatches rfl, hcounts h.failures rfl⟩
  | dispatch => exact ⟨hcounts h.direct rfl, hbump h.dispatches rfl, hcounts h.failures rfl⟩
  | failure => exact ⟨hcounts h.direct rfl, hcounts h.dispatches rfl, hbump h.failures rfl⟩

theorem Tracer.heedAll_profiling (signals : List Signal) :
    ∃ p, (profiling {}).heedAll signals = profiling p ∧ p.Counts (events signals) := by
  induction signals using List.reverseRecOn with
  | nil => exact ⟨{}, rfl, .nil, .nil, .nil⟩
  | append_singleton signals s ih =>
    obtain ⟨p, hp, hcounts⟩ := ih
    rw [heedAll_append, hp, events_append]
    cases s with
    | event e => exact ⟨p.note e, rfl, hcounts.note e⟩
    | clear => exact ⟨p, rfl, by simpa using hcounts⟩

namespace Log

/-- The lines of a log with the limit `k` after a list of events: those of the first `k` events, and
the notice above the line of the event with which the limit is reached. -/
def view (k : Nat) (es : List Event) : List String :=
  if 1 ≤ k ∧ k ≤ es.length then
    (es.take (k - 1)).map Event.line ++ notice k :: ((es.take k).drop (k - 1)).map Event.line
  else (es.take k).map Event.line

theorem view_of_lt (hk : es.length < k) : view k es = es.map Event.line := by
  rw [view, if_neg (by omega), List.take_of_length_le hk.le]

theorem view_append_last (e : Event) (hk : es.length + 1 = k) :
    view k (es ++ [e]) = es.map Event.line ++ [notice k, e.line] := by
  subst hk
  have htake : (es ++ [e]).take (es.length + 1) = es ++ [e] := List.take_of_length_le (by simp)
  rw [view, if_pos (by simp), htake, Nat.add_sub_cancel, List.take_left, List.drop_left]
  rfl

theorem view_append_of_le (e : Event) (hk : k ≤ es.length) : view k (es ++ [e]) = view k es := by
  have htake : (es ++ [e]).take k = es.take k := List.take_append_of_le_length hk
  have htake' : (es ++ [e]).take (k - 1) = es.take (k - 1) := List.take_append_of_le_length (by omega)
  have hlength : k ≤ (es ++ [e]).length := by simp; omega
  simp only [view, htake, htake', hk, hlength]

/-- The three cases are whether the limit was reached before, is reached by this event, or is not. -/
theorem note_view (k : Nat) (es : List Event) (e : Event) :
    (⟨some k, min k es.length, view k es⟩ : Log).note e =
      ⟨some k, min k (es ++ [e]).length, view k (es ++ [e])⟩ := by
  have hlength : (es ++ [e]).length = es.length + 1 := List.length_append
  rcases Nat.lt_trichotomy k (es.length + 1) with hk | hk | hk
  · have hmin : min k es.length = k := by omega
    have hmin' : min k (es.length + 1) = k := by omega
    simp [note, hlength, hmin, hmin', view_append_of_le e (show k ≤ es.length by omega)]
  · have hmin : min k es.length = es.length := by omega
    have hmin' : min k (es.length + 1) = es.length + 1 := by omega
    rw [view_append_last e hk.symm, view_of_lt (by omega), hlength, hmin, hmin']
    simp [note, hk]
  · have hmin : min k es.length = es.length := by omega
    have hmin' : min k (es.length + 1) = es.length + 1 := by omega
    have hview : view k (es ++ [e]) = (es ++ [e]).map Event.line := view_of_lt (by omega)
    rw [hview, view_of_lt (by omega), hlength, hmin, hmin']
    simp [note, show ¬ k ≤ es.length by omega, show es.length + 1 ≠ k by omega]

theorem head?_append {s : String} {c : Char} (hs : s.toList.head? = some c) (s' : String) :
    (s ++ s').toList.head? = some c := by
  rw [String.toList_append, List.head?_append, hs, Option.some_or]

theorem head?_line (e : Event) : e.line.toList.head? = some '[' := by
  cases e with
  | direct => exact head?_append (head?_append (head?_append (by decide) _) _) _
  | dispatch =>
    exact head?_append (head?_append (head?_append (head?_append (head?_append (by decide) _) _) _) _) _
  | failure =>
    exact head?_append (head?_append (head?_append (head?_append (head?_append (by decide) _) _) _) _) _

theorem line_ne_notice (e : Event) (k : Nat) : e.line ≠ notice k := by
  intro h
  have hline := head?_line e
  have hnotice : (notice k).toList.head? = some '-' := head?_append (head?_append (by decide) _) _
  rw [h, hnotice] at hline
  exact absurd hline (by decide)

theorem count_view (k : Nat) (es : List Event) :
    (view k es).count (notice k) = if 1 ≤ k ∧ k ≤ es.length then 1 else 0 := by
  have hlines (es : List Event) : (es.map Event.line).count (notice k) = 0 := by
    simp [List.count_eq_zero, line_ne_notice]
  unfold view
  split_ifs
  · rw [List.count_append, List.count_cons_self, hlines, hlines]
  · exact hlines _

theorem filter_view (k : Nat) (es : List Event) :
    (view k es).filter (· ≠ notice k) = (es.take k).map Event.line := by
  have hlines (es : List Event) : (es.map Event.line).filter (· ≠ notice k) = es.map Event.line := by
    simp [List.filter_eq_self, line_ne_notice]
  unfold view
  split_ifs with hk
  · have htake : es.take (k - 1) = (es.take k).take (k - 1) := by rw [List.take_take, min_eq_left (by omega)]
    rw [List.filter_append, List.filter_cons_of_neg (by simp), hlines, hlines, ← List.map_append, htake,
      List.take_append_drop]
  · exact hlines _

end Log

theorem Tracer.heedAll_logging (k : Nat) (signals : List Signal) :
    (logging { limit := some k }).heedAll signals = logging
      { limit := some k, admitted := min k (events signals).length,
        lines := Log.view k (events signals) } := by
  induction signals using List.reverseRecOn with
  | nil =>
    have hview : Log.view k [] = [] := by
      rw [Log.view, if_neg (by simp; omega), List.take_nil, List.map_nil]
    simp [heedAll, events, hview]
  | append_singleton signals s ih =>
    rw [heedAll_append, ih, events_append]
    cases s with
    | event e => rw [events_event, heed, note, Log.note_view]
    | clear => rw [events_clear, List.append_nil]; rfl

/-- What the tracers show of a history. A recording without a limit has all of a list of events, with the
kinds and classes of failures but not their messages; one with a limit has the first events since the last
clear. A profile has the counts of the events. A log has a
line for each of the first events, in their order, and the notice once, above the last of them, if the
limit is reached. -/
theorem tracers_show_one_history (signals : List Signal) (k : Nat) :
    (∀ es : List Event, (Tracer.recording {}).heedAll (es.map .event) =
      .recording { events := es.map Event.recorded }) ∧
    (Tracer.recording { limit := some k }).heedAll signals =
      .recording { limit := some k, events := ((sinceClear signals).map Event.recorded).take k } ∧
    (∃ p, (Tracer.profiling {}).heedAll signals = .profiling p ∧ p.Counts (events signals)) ∧
    (Tracer.logging { limit := some k }).heedAll signals = .logging
      { limit := some k, admitted := min k (events signals).length, lines := Log.view k (events signals) } ∧
    (Log.view k (events signals)).filter (· ≠ Log.notice k) = ((events signals).take k).map Event.line ∧
    (Log.view k (events signals)).count (Log.notice k) =
      if 1 ≤ k ∧ k ≤ (events signals).length then 1 else 0 := by
  refine ⟨fun es => ?_, Tracer.heedAll_recording_limit k signals, Tracer.heedAll_profiling signals,
    Tracer.heedAll_logging k signals, Log.filter_view k _, Log.count_view k _⟩
  rw [Tracer.heedAll_recording, sinceClear_map_event]

end ItemAccess
