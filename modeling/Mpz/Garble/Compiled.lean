import Mpz.Circuits.Program
import Mpz.Garble.Correctness

/-!
# Programs that are garbled

A circuit that is built from a program is garbled by one party and evaluated by the other. Whatever
the labels, the tweakable hash and the sizes of the batches, the labels of the outputs stand for
what the program means on the inputs.

## Main results

* `decode_auth` — the pointer bits of keys and MACs give the bits that are authenticated
* `CircuitBuilder.garble_means` — build, garble, evaluate and decode: what comes out is what the
  program means
-/

namespace Mpz

/-- The pointer bits of both parties give the bits that are authenticated. -/
theorem decode_auth {delta : Delta} {keys : List Key} {values : List Bool}
    (h : keys.length = values.length) :
    List.zipWith (fun (k : Key) (m : Mac) => k.pointer ^^ m.pointer) keys
      (List.zipWith (fun k x => k.auth x delta) keys values) = values := by
  induction keys generalizing values with
  | nil =>
    cases values with
    | nil => rfl
    | cons value values => cases h
  | cons key keys ih =>
    cases values with
    | nil => cases h
    | cons value values =>
      rw [List.zipWith_cons_cons, List.zipWith_cons_cons, ih (Nat.succ.inj h), Key.pointer_auth,
        ← Bool.xor_assoc, Bool.xor_self, Bool.false_xor]

namespace CircuitBuilder

/-- **A garbled program computes what it means.** A program is built, its circuit is garbled in
batches of any size, and the other party evaluates it on the labels of some inputs. Both parties
finish, and the pointer bits of their labels give what the program means on the inputs. -/
theorem garble_means (requests : List Request) (s : Program)
    (hrun : requests.foldlM Program.next .new = some s) (hproper : s.builder.Proper)
    (tccr : Tccr) (N : ℕ) (hN : 0 < N) (delta : Delta) (gb : Garbler) (ev : Evaluator) :
    ∃ circ, s.builder.build = .ok circ ∧
      ∀ (bits : List Bool) (keys : List Key), bits.length = requests.count .addInput →
        keys.length = requests.count .addInput →
        ∃ m gbIter evConsumer gbIter' evConsumer' outputKeys outputMacs,
          requests.foldlM (Meaning.next bits) .new = some m ∧
          gb.generateBatched circ delta keys = .ok gbIter ∧
          ev.evaluateBatched circ (List.zipWith (fun k x => k.auth x delta) keys bits) =
            .ok evConsumer ∧
          (∀ fuel, circ.andCount < fuel →
            transfer tccr N fuel gbIter evConsumer = some (gbIter', evConsumer')) ∧
          gbIter'.finish tccr = .ok ⟨outputKeys⟩ ∧ evConsumer'.finish tccr = .ok ⟨outputMacs⟩ ∧
          outputMacs = List.zipWith (fun k x => k.auth x delta) outputKeys m.outputs ∧
          List.zipWith (fun (k : Key) (m : Mac) => k.pointer ^^ m.pointer) outputKeys outputMacs =
            m.outputs := by
  obtain ⟨hwired, hlt⟩ := wired_of_run hrun
  have hwritten := hproper.written hwired hlt
  have hbuild := hwired.linked.build_eq hwritten
  refine ⟨_, hbuild, fun bits keys hbits hkeys => ?_⟩
  rw [← length_inputs_of_run hrun] at hbits hkeys
  obtain ⟨m, hm, hsim⟩ := simulates_of_run bits hrun (hwired.assignment_eq bits)
  obtain ⟨gbIter, evConsumer, gbIter', evConsumer', outputKeys, values, hgb, hev, htransfer,
    hvalues, hfinish, hfinish', hlk, hlv⟩ :=
    garbleBatched_correct tccr hN (hwired.wellFormed hwritten hbuild) delta hkeys hbits gb ev
  rw [hwired.linked.evaluate_build hwritten hbuild hbits (hwired.assignment_eq bits),
    ← hsim.outputs_eq] at hvalues
  obtain rfl := Outcome.ok.inj hvalues
  exact ⟨m, gbIter, evConsumer, gbIter', evConsumer', outputKeys, _, hm, hgb, hev, htransfer,
    hfinish, hfinish', rfl, decode_auth (hlk.trans hlv.symm)⟩

/-- A program that computes NAND. -/
theorem garble_means_nand : ∃ s circ gbIter evConsumer gbIter' evConsumer' outputKeys outputMacs,
    nandRequests.foldlM Program.next .new = some s ∧ s.builder.build = .ok circ ∧
    (Garbler.mk []).generateBatched circ (.new 4#128) [⟨5#128⟩, ⟨6#128⟩] = .ok gbIter ∧
    (Evaluator.mk []).evaluateBatched circ
      (List.zipWith (fun (k : Key) x => k.auth x (.new 4#128)) [⟨5#128⟩, ⟨6#128⟩] [true, false]) =
        .ok evConsumer ∧
    (∀ fuel, circ.andCount < fuel →
      transfer (fun t x => t ^^^ x) 1 fuel gbIter evConsumer = some (gbIter', evConsumer')) ∧
    gbIter'.finish (fun t x => t ^^^ x) = .ok ⟨outputKeys⟩ ∧
    evConsumer'.finish (fun t x => t ^^^ x) = .ok ⟨outputMacs⟩ ∧
    List.zipWith (fun (k : Key) (m : Mac) => k.pointer ^^ m.pointer) outputKeys outputMacs =
      [true] := by
  obtain ⟨s, hrun, hproper⟩ := exists_nand
  obtain ⟨circ, hbuild, hmeans⟩ := garble_means nandRequests s hrun hproper (fun t x => t ^^^ x) 1
    (by decide)
    (.new 4#128) (Garbler.mk []) (Evaluator.mk [])
  obtain ⟨m, gbIter, evConsumer, gbIter', evConsumer', outputKeys, outputMacs, hm, hgb, hev,
      htransfer, hfinish, hfinish',
    -, hdecode⟩ := hmeans [true, false] [⟨5#128⟩, ⟨6#128⟩] rfl rfl
  have houtputs : m.outputs = [true] := by
    obtain rfl := Option.some.inj hm
    rfl
  exact ⟨s, circ, gbIter, evConsumer, gbIter', evConsumer', outputKeys, outputMacs, hrun, hbuild,
    hgb, hev, htransfer, hfinish, hfinish', hdecode.trans houtputs⟩

end CircuitBuilder

end Mpz
