/- The number of bytes that `fmt_f64` writes with three digits behind the point, beside the one
   that `fmt_size_f64` predicts. -/

import Libromano.Double
import Libromano.FmtDecimal

set_option autoImplicit false
set_option relaxedAutoImplicit false

namespace Libromano.Fmt

open Foundation.Decimal Foundation.Logarithm Double

variable {x : ℚ}

example : fmtF64 (Double.finite (-25 / 2) (by norm_num)) 3 = .ok ([45, 49, 50, 46, 53, 48, 48], 7) ∧
    fmtSizeF64 (Double.finite (-25 / 2) (by norm_num)) 3 = 7 := by decide +kernel

end Libromano.Fmt
