/-
  PhaseCert.Proofs.Pipeline.Bound — the bound in a dump, and the bound in an instance.

  A dump is JSON that records an interval (`recorded?`). An instance has literals for the two
  ends of one. The two files give the same bound if the literals are the ones that the recorded
  ends are written as (`SameBound`). For the dump of one certificate and the instance of another
  that is so exactly if the ends of both intervals are written alike (`sameBound_iff`).
-/
import PhaseCert.Proofs.Certificate.Decoding
import PhaseCert.Proofs.Instance.Soundness
import PhaseCert.Proofs.Text.Utf8

namespace PhaseCert

/-- The interval that a dump records. -/
def recorded? (dump : Bytes) : Option Interval := do
  let text ← Utf8.strict? dump
  let tree ← Json.read? text
  Interval.ofTree? (← tree.get? "delta_ph_interval")

/-- The instance's literals are those of the recorded interval. -/
def SameBound (dump artifact : Bytes) : Prop :=
  ∃ i source, recorded? dump = some i ∧ Utf8.strict? artifact = some source ∧
    Instance.literal? source "delta_ph_lower" = some (Instance.realLiteral i.lower) ∧
      Instance.literal? source "delta_ph_upper" = some (Instance.realLiteral i.upper)

/-- The ends of both intervals are written alike. -/
def Interval.Alike (i j : Interval) : Prop :=
  Instance.realLiteral i.lower = Instance.realLiteral j.lower ∧ Instance.realLiteral i.upper = Instance.realLiteral j.upper

namespace Certificate

theorem get?_written_interval (c : Certificate) : c.written.get? "delta_ph_interval" = some c.interval.toTree := by
  rw [written, Tree.get?, fields]
  cases c.estimate <;> rfl

/-- The dump of a certificate records the certificate's interval. -/
theorem recorded?_json {c : Certificate} (h : c.interval.Proper) : recorded? (Utf8.encode (c.json true)) = some c.interval := by
  simp only [recorded?, Utf8.strict?_encode, read?_json, get?_written_interval, Interval.ofTree?_toTree h,
    Option.bind_eq_bind, Option.bind_some]

end Certificate

namespace Instance

/-- The literals of a text are those of the certificate's interval. -/
theorem source_literals {p : Protocol} {c : Certificate} {text : String} (h : source p c = .ok text) :
    literal? text "delta_ph_lower" = some (realLiteral c.interval.lower) ∧
      literal? text "delta_ph_upper" = some (realLiteral c.interval.upper) := by
  obtain ⟨v, rfl, hf, hl, hu, -⟩ := source_ok h
  rw [← hl, ← hu]
  exact ⟨literal?_lines hf (by simp [reals]), literal?_lines hf (by simp [reals])⟩

end Instance

/-- The dump of a certificate and the instance of another give the same bound exactly if both
    intervals are written alike. -/
theorem sameBound_iff {p : Protocol} {c c' : Certificate} {text : String} (hc : c.interval.Proper)
    (hs : Instance.source p c' = .ok text) :
    SameBound (Utf8.encode (c.json true)) (Utf8.encode text) ↔ c'.interval.Alike c.interval := by
  obtain ⟨hlower, hupper⟩ := Instance.source_literals hs
  constructor
  · rintro ⟨i, source, hi, hsource, hl, hu⟩
    rw [Certificate.recorded?_json hc, Option.some.injEq] at hi
    rw [Utf8.strict?_encode, Option.some.injEq] at hsource
    subst hi hsource
    rw [hlower, Option.some.injEq] at hl
    rw [hupper, Option.some.injEq] at hu
    exact ⟨hl, hu⟩
  · rintro ⟨hl, hu⟩
    refine ⟨c.interval, text, Certificate.recorded?_json hc, Utf8.strict?_encode text, ?_, ?_⟩
    · rw [hlower, hl]
    · rw [hupper, hu]

end PhaseCert
