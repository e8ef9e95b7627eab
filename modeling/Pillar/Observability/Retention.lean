import Pillar.Psl.Parser

/-!
# Retention policies

`pillar-observability`: a policy applies to the signals of one kind that carry certain labels; it
shortens the time that they are kept, or it thins them out, one for each interval of time.

* `effective_window` — **the window is the shortest of those that apply.**
* `effective_downsample` — **the first policy that applies and thins out decides on the interval.**
-/

namespace Pillar.Observability

open Psl (SignalKind)
open Std (ExtTreeMap)

abbrev LabelSet := ExtTreeMap String String

def debugName : SignalKind → String
  | .metric => "Metric"
  | .log => "Log"
  | .traceSpan => "TraceSpan"
  | .profileSample => "ProfileSample"
  | .metadataSample => "MetadataSample"

/-- The labels that a signal must carry. -/
structure LabelSelector where
  matchLabels : LabelSet

namespace LabelSelector

def matches_ (s : LabelSelector) (labels : LabelSet) : Bool :=
  s.matchLabels.toList.all fun (k, v) => labels[k]? == some v

def key (s : LabelSelector) : String :=
  s.matchLabels.toList.foldl (fun t (k, v) => t ++ k ++ "=" ++ v ++ ";") ""

end LabelSelector

structure RetentionPolicy where
  kind : SignalKind
  selector : LabelSelector
  /-- How long a signal is kept, if the policy says. -/
  window : Option ℕ
  /-- The interval of which one signal is kept, if the policy says. -/
  downsample : Option ℕ

namespace RetentionPolicy

def matches_ (p : RetentionPolicy) (kind : SignalKind) (labels : LabelSet) : Bool :=
  decide (p.kind = kind) && p.selector.matches_ labels

/-- The text under which the policy thins signals out. -/
def bucketKey (p : RetentionPolicy) : String := debugName p.kind ++ "|" ++ p.selector.key

end RetentionPolicy

/-- What the policies say about a signal. -/
structure EffectiveRetention where
  window : Option ℕ := none
  /-- The interval of which one is kept, with the text of the policy. -/
  downsample : Option (String × ℕ) := none

/-- The policies that are installed. -/
structure RetentionPolicySet where
  policies : List RetentionPolicy

namespace RetentionPolicySet

def empty : RetentionPolicySet := ⟨[]⟩

/-- One policy that applies is taken into account. -/
def include_ (eff : EffectiveRetention) (p : RetentionPolicy) : EffectiveRetention where
  window :=
    match p.window with
    | none => eff.window
    | some w =>
      match eff.window with
      | some existing => some (min existing w)
      | none => some w
  downsample :=
    match eff.downsample, p.downsample with
    | none, some interval => some (p.bucketKey, interval)
    | _, _ => eff.downsample

def effective (s : RetentionPolicySet) (kind : SignalKind) (labels : LabelSet) :
    EffectiveRetention :=
  s.policies.foldl (fun eff p => if !p.matches_ kind labels then eff else include_ eff p) {}

def matching (s : RetentionPolicySet) (kind : SignalKind) (labels : LabelSet) :
    List RetentionPolicy :=
  s.policies.filter fun p => p.matches_ kind labels

theorem effective_eq (s : RetentionPolicySet) (kind : SignalKind) (labels : LabelSet) :
    s.effective kind labels = (s.matching kind labels).foldl include_ {} := by
  rw [effective, matching, List.foldl_filter]
  congr 1
  funext eff p
  cases p.matches_ kind labels <;> rfl

theorem window_foldl (l : List RetentionPolicy) (eff : EffectiveRetention) :
    (l.foldl include_ eff).window = (eff.window.toList ++ l.filterMap (·.window)).min? := by
  induction l generalizing eff with
  | nil => cases h : eff.window <;> simp [h]
  | cons p l ih =>
    rw [List.foldl_cons, ih]
    cases hp : p.window with
    | none => simp [include_, hp]
    | some w =>
      rw [List.filterMap_cons_some hp]
      cases he : eff.window with
      | none => simp [include_, hp, he]
      | some existing =>
        have hmin : (include_ eff p).window = some (min existing w) := by simp [include_, hp, he]
        rw [hmin]
        rfl

/-- **The window is the shortest of those that apply.** -/
theorem effective_window (s : RetentionPolicySet) (kind : SignalKind) (labels : LabelSet) :
    (s.effective kind labels).window = ((s.matching kind labels).filterMap (·.window)).min? := by
  rw [effective_eq, window_foldl]
  rfl

/-- What a policy says about thinning out. -/
def thinning? (p : RetentionPolicy) : Option (String × ℕ) := p.downsample.map (p.bucketKey, ·)

theorem downsample_foldl (l : List RetentionPolicy) (eff : EffectiveRetention) :
    (l.foldl include_ eff).downsample = eff.downsample.or (l.filterMap thinning?).head? := by
  induction l generalizing eff with
  | nil => simp
  | cons p l ih =>
    rw [List.foldl_cons, ih]
    cases he : eff.downsample with
    | some d => simp [include_, he]
    | none => cases hp : p.downsample <;> simp [include_, thinning?, he, hp]

/-- **The first policy that applies and thins out decides on the interval.** -/
theorem effective_downsample (s : RetentionPolicySet) (kind : SignalKind) (labels : LabelSet) :
    (s.effective kind labels).downsample =
      ((s.matching kind labels).filterMap thinning?).head? := by
  rw [effective_eq, downsample_foldl]
  rfl

end RetentionPolicySet

end Pillar.Observability
