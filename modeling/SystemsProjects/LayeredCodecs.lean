import Mathlib.Data.List.Basic

/-!
# Layers of encodings

An encoding with a key is undone by a partial decoding with the same key. Messages are wrapped
with a list of keys, the first key outermost, and every decoding with the next key takes off
one layer.
-/
namespace SystemsProjects.LayeredCodecs

structure Codec (K M : Type*) where
  enc : K → M → M
  dec : K → M → Option M
  dec_enc : ∀ k m, dec k (enc k m) = some m

variable {K M : Type*} (c : Codec K M)

namespace Codec

def wrap (ks : List K) (m : M) : M := ks.foldr c.enc m

def unwrap : List K → M → Option M
  | [], m => some m
  | k::ks, m => (c.dec k m).bind (unwrap ks)

theorem wrap_append (ks ls : List K) (m : M) : c.wrap (ks++ls) m = c.wrap ks (c.wrap ls m) :=
  List.foldr_append

theorem dec_wrap (k : K) (ks : List K) (m : M) :
    c.dec k (c.wrap (k::ks) m) = some (c.wrap ks m) := c.dec_enc k _

theorem unwrap_wrap (ks : List K) (m : M) : c.unwrap ks (c.wrap ks m) = some m := by
  induction ks with
  | nil => rfl
  | cons k ks ih =>
    rw [unwrap, dec_wrap, Option.bind_some]
    exact ih

end Codec

end SystemsProjects.LayeredCodecs
