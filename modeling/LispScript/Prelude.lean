/-!
The prelude: derived macros over the special forms. Their order matters, since later macros expand
into calls of earlier ones.
-/

namespace LispScript

/-- The text that a session evaluates first, unless it is told not to. -/
def preludeText : String := r#"
(defmacro when (test &body body)
  `(if ,test (progn ,@body) nil))

(defmacro unless (test &body body)
  `(if ,test nil (progn ,@body)))

(defmacro defun (name lambda-list &body body)
  `(progn
     (fset ',name (function (named-lambda ,name ,lambda-list ,@body)))
     ',name))

(defmacro return (&optional value)
  `(return-from nil ,value))

(defmacro and (&rest forms)
  (if (null forms)
      t
      (if (null (cdr forms))
          (car forms)
          `(if ,(car forms) (and ,@(cdr forms)) nil))))

(defmacro or (&rest forms)
  (if (null forms)
      nil
      (if (null (cdr forms))
          (car forms)
          (let ((value (gensym "OR")))
            `(let ((,value ,(car forms)))
               (if ,value ,value (or ,@(cdr forms))))))))

(defmacro cond (&rest clauses)
  (when clauses
    (let ((clause (car clauses))
          (more (cdr clauses)))
      (if (cdr clause)
          `(if ,(car clause) (progn ,@(cdr clause)) (cond ,@more))
          `(or ,(car clause) (cond ,@more))))))

(defmacro defvar (name &optional (value nil value-p) documentation)
  (declare (ignore documentation))
  `(progn
     (declaim (special ,name))
     ,@(when value-p
         `((unless (boundp ',name) (setq ,name ,value))))
     ',name))

(defmacro defparameter (name value &optional documentation)
  (declare (ignore documentation))
  `(progn
     (declaim (special ,name))
     (setq ,name ,value)
     ',name))

(defmacro prog1 (first &body forms)
  (let ((result (gensym "PROG1")))
    `(let ((,result ,first))
       ,@forms
       ,result)))

(defmacro incf (place &optional (delta 1))
  `(setq ,place (+ ,place ,delta)))

(defmacro decf (place &optional (delta 1))
  `(setq ,place (- ,place ,delta)))

(defmacro multiple-value-list (form)
  `(multiple-value-call (function list) ,form))

(defmacro multiple-value-bind (vars form &body body)
  `(multiple-value-call
       (function (lambda (&optional ,@vars &rest ,(gensym "IGNORE")) ,@body))
     ,form))

(defmacro dolist ((var list-form &optional result) &body body)
  (let ((tail (gensym "TAIL"))
        (start (gensym "START")))
    `(block nil
       (let ((,tail ,list-form)
             (,var nil))
         (tagbody
            ,start
            (when (null ,tail)
              (setq ,var nil)
              (return-from nil ,result))
            (setq ,var (car ,tail))
            ,@body
            (setq ,tail (cdr ,tail))
            (go ,start))))))

(defmacro dotimes ((var count &optional result) &body body)
  (let ((limit (gensym "LIMIT"))
        (start (gensym "START")))
    `(block nil
       (let ((,limit ,count)
             (,var 0))
         (tagbody
            ,start
            (when (>= ,var ,limit)
              (return-from nil ,result))
            ,@body
            (setq ,var (+ ,var 1))
            (go ,start))))))
"#

end LispScript
